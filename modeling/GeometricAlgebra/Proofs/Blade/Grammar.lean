import GeometricAlgebra.Proofs.Blade.Name
import GeometricAlgebra.Proofs.Multivector.View

set_option autoImplicit false

/-! # The texts that name a blade

Reading takes the text apart into factors, reads their numbers one by one and stops at the first one
that is none, is out of range or does not ascend. So it accepts a text iff all of them are numbers
of vectors in ascending order (`foldlM_addFactor_eq_ok_iff`), and what it refuses it refuses for one
of four causes, each of which quotes the text (`isNameError_of_ofText`). A blade is written with the
numbers of its vectors in this order, so its name is read back (`ofText_name`). -/

namespace GeometricAlgebra

namespace Blade

/-- The blade has the vectors with the given numbers, which are counted from one and ascend. -/
structure HasNumbers (b : Nat) (numbers : List Nat) : Prop where
  ascending : numbers.Pairwise (· < ·)
  inRange : ∀ d ∈ numbers, 1 ≤ d ∧ d ≤ maxDimension
  eq_sum : b = (numbers.map fun d => 2 ^ (d - 1)).sum

/-- The text is `1`, for the scalar blade, or factors that number the vectors of the blade by ASCII
    digits. -/
def IsName (text : List Char) (b : Nat) : Prop :=
  text = ['1'] ∧ b = 0 ∨
    ∃ factors : List (List Char), Factors factors text ∧
      (∀ digits ∈ factors, digits ≠ [] ∧ ∀ c ∈ digits, Decimal.isDigit c = true) ∧
      HasNumbers b (factors.map Decimal.valueOf)

/-- The causes for which a text is refused as a name. -/
inductive IsNameError (text : List Char) : Error → Prop where
  | malformed : IsNameError text (.malformedBlade (String.ofList text))
  | tooLarge : IsNameError text (.vectorNumberTooLarge (String.ofList text))
  | outside (number : Nat) (h : ¬ (1 ≤ number ∧ number ≤ maxDimension)) :
      IsNameError text (.vectorNumberOutside number (String.ofList text))
  | notAscending : IsNameError text (.vectorsNotAscending (String.ofList text))

theorem IsNameError.kind {text : List Char} {e : Error} (h : IsNameError text e) :
    e.kind = .invalidArgument := by
  cases h <;> rfl

theorem hasNumbers_iff {b : Nat} {numbers : List Nat} :
    HasNumbers b numbers ↔ (∀ d ∈ numbers, d ≤ maxDimension) ∧ (0 :: numbers).IsChain (· < ·) ∧
      b = (numbers.map fun d => 2 ^ (d - 1)).sum := by
  rw [List.isChain_iff_pairwise, List.pairwise_cons]
  constructor
  · rintro ⟨hascending, hrange, hsum⟩
    exact ⟨fun d hd => (hrange d hd).2, ⟨fun d hd => (hrange d hd).1, hascending⟩, hsum⟩
  · rintro ⟨hle, ⟨hpos, hascending⟩, hsum⟩
    exact ⟨hascending, fun d hd => ⟨hpos d hd, hle d hd⟩, hsum⟩

variable {text digits : List Char} {factors : List (List Char)} {b last d : Nat}

/-! ## One factor -/

theorem vectorNumber_eq_ok_iff :
    vectorNumber text digits = .ok d ↔
      (∀ c ∈ digits, Decimal.isDigit c = true) ∧ d = Decimal.valueOf digits ∧
        1 ≤ d ∧ d ≤ maxDimension := by
  have hbound : maxDimension < vectorNumberBound := by decide
  simp only [vectorNumber]
  split
  · next h =>
      refine iff_of_false (by simp) ?_
      rintro ⟨hall, rfl, -, hle⟩
      rw [Bool.or_eq_true, Bool.not_eq_true', decide_eq_true_eq, List.all_eq_true.mpr hall] at h
      rcases h with h | h
      · cases h
      · omega
  · next h =>
      rw [Bool.or_eq_true, not_or, Bool.not_eq_true', Bool.not_eq_false, List.all_eq_true] at h
      split
      · next hout =>
          refine iff_of_false (by simp) ?_
          rintro ⟨-, rfl, hpos, hle⟩
          omega
      · next hin =>
          rw [Except.ok.injEq, and_iff_right h.1]
          constructor
          · rintro rfl
            omega
          · exact fun h => h.1.symm

theorem isNameError_of_vectorNumber {e : Error} (h : vectorNumber text digits = .error e) :
    IsNameError text e := by
  simp only [vectorNumber] at h
  split at h
  · cases h
    exact .tooLarge
  · split at h
    · cases h
      exact .outside _ (by omega)
    · cases h

/-- A factor is accepted if its number is above the last one, and puts its vector into the blade. -/
theorem addFactor_eq_ok_iff {acc : Nat × Nat} :
    addFactor text (b, last) digits = .ok acc ↔
      (∀ c ∈ digits, Decimal.isDigit c = true) ∧ Decimal.valueOf digits ≤ maxDimension ∧
        last < Decimal.valueOf digits ∧
        acc = (b ||| ofVector (Decimal.valueOf digits - 1), Decimal.valueOf digits) := by
  rw [addFactor, bind_eq_ok_iff]
  simp only [vectorNumber_eq_ok_iff]
  constructor
  · rintro ⟨d, ⟨hall, rfl, -, hle⟩, h⟩
    split at h
    · cases h
    · next hlt =>
        cases h
        exact ⟨hall, hle, by omega, rfl⟩
  · rintro ⟨hall, hle, hlt, rfl⟩
    refine ⟨_, ⟨hall, rfl, by omega, hle⟩, ?_⟩
    rw [if_neg (by omega)]
    rfl

theorem isNameError_of_addFactor {acc : Nat × Nat} {e : Error}
    (h : addFactor text acc digits = .error e) : IsNameError text e := by
  rw [addFactor, bind_eq_error_iff] at h
  rcases h with h | ⟨d, -, h⟩
  · exact isNameError_of_vectorNumber h
  · split at h
    · cases h
      exact .notAscending
    · cases h

/-! ## All factors -/

/-- **Factors are accepted iff their numbers ascend** from the last one on, and then the blade gets
    the powers of two of their vectors. -/
theorem foldlM_addFactor_eq_ok_iff (hb : b < 2 ^ last) {b' : Nat} :
    (∃ last', factors.foldlM (addFactor text) (b, last) = .ok (b', last')) ↔
      (∀ digits ∈ factors, ∀ c ∈ digits, Decimal.isDigit c = true) ∧
      (∀ digits ∈ factors, Decimal.valueOf digits ≤ maxDimension) ∧
      (last :: factors.map Decimal.valueOf).IsChain (· < ·) ∧
      b' = b + ((factors.map Decimal.valueOf).map fun d => 2 ^ (d - 1)).sum := by
  induction factors generalizing b last with
  | nil =>
      simp only [List.foldlM_nil, List.map_nil, List.sum_nil, Nat.add_zero]
      constructor
      · rintro ⟨_, h⟩
        cases h
        simp
      · rintro ⟨-, -, -, rfl⟩
        exact ⟨last, rfl⟩
  | cons digits factors ih =>
      -- the next vector lies above the blade so far, so it is added to the blade as a number
      have hput : last < Decimal.valueOf digits →
          b ||| ofVector (Decimal.valueOf digits - 1) = b + 2 ^ (Decimal.valueOf digits - 1) ∧
            b + 2 ^ (Decimal.valueOf digits - 1) < 2 ^ Decimal.valueOf digits := by
        intro hlast
        have hlt : b < 2 ^ (Decimal.valueOf digits - 1) :=
          hb.trans_le (Nat.pow_le_pow_right (by decide) (by omega))
        have hpow : 2 ^ Decimal.valueOf digits = 2 ^ (Decimal.valueOf digits - 1) * 2 := by
          rw [← Nat.pow_succ]
          congr 1
          omega
        rw [Nat.lor_comm, ofVector_or hlt]
        omega
      simp only [List.foldlM_cons, bind_eq_ok_iff, addFactor_eq_ok_iff, List.forall_mem_cons,
        List.map_cons, List.isChain_cons_cons, List.sum_cons]
      constructor
      · rintro ⟨last', _, ⟨hall, hle, hlast, rfl⟩, h⟩
        obtain ⟨heq, hlt⟩ := hput hlast
        rw [heq] at h
        obtain ⟨hall', hle', hchain, rfl⟩ := (ih hlt).mp ⟨last', h⟩
        exact ⟨⟨hall, hall'⟩, ⟨hle, hle'⟩, ⟨hlast, hchain⟩, by omega⟩
      · rintro ⟨⟨hall, hall'⟩, ⟨hle, hle'⟩, ⟨hlast, hchain⟩, rfl⟩
        obtain ⟨heq, hlt⟩ := hput hlast
        obtain ⟨last', h⟩ := (ih hlt).mpr ⟨hall', hle', hchain, (Nat.add_assoc _ _ _).symm⟩
        refine ⟨last', _, ⟨hall, hle, hlast, rfl⟩, ?_⟩
        rw [heq, h]

/-! ## Names -/

theorem IsName.ne_nil (h : IsName text b) : text ≠ [] := by
  rcases h with ⟨rfl, -⟩ | ⟨_, h, -, -⟩
  · exact List.cons_ne_nil '1' []
  · obtain ⟨_, rfl⟩ := h.exists_cons
    exact List.cons_ne_nil 'e' _

theorem IsName.inName (h : IsName text b) {c : Char} (hc : c ∈ text) : InName c := by
  rcases h with ⟨rfl, -⟩ | ⟨_, h, hdigits, -⟩
  · obtain rfl : c = '1' := List.mem_singleton.mp hc
    decide
  · refine (h.mem hc).imp_right fun h => h.imp_right ?_
    rintro ⟨digits, hmem, hc⟩
    exact (hdigits digits hmem).2 c hc

/-- Factors that are accepted are the only ones, as a text is split in one way. -/
theorem isName_iff (h : Factors factors text) (hdigits : ∀ digits ∈ factors, IsFactor digits) :
    IsName text b ↔ (∀ digits ∈ factors, ∀ c ∈ digits, Decimal.isDigit c = true) ∧
      HasNumbers b (factors.map Decimal.valueOf) := by
  constructor
  · rintro (⟨rfl, -⟩ | ⟨factors', h', hdigits', hnumbers⟩)
    · obtain ⟨_, hone⟩ := h.exists_cons
      cases hone
    · have hsplit := h'.factors?_eq fun digits hmem => ⟨(hdigits' digits hmem).1, fun c hc =>
        Text.isDecimalDigit_of_isDigit ((hdigits' digits hmem).2 c hc)⟩
      rw [h.factors?_eq hdigits] at hsplit
      cases hsplit
      exact ⟨fun digits hmem => (hdigits' digits hmem).2, hnumbers⟩
  · rintro ⟨hascii, hnumbers⟩
    exact Or.inr ⟨factors, h, fun digits hmem => ⟨(hdigits digits hmem).1, hascii digits hmem⟩,
      hnumbers⟩

/-- **A text is read as a blade iff it is a name of the blade.** -/
theorem ofText_eq_ok_iff : ofText text = .ok b ↔ IsName (Text.trim text) b := by
  simp only [ofText]
  split
  · next hone =>
      rw [hone, Except.ok.injEq]
      refine ⟨fun h => Or.inl ⟨rfl, h.symm⟩, ?_⟩
      rintro (⟨-, rfl⟩ | ⟨_, h, -, -⟩)
      · rfl
      · obtain ⟨_, h⟩ := h.exists_cons
        cases h
  · next hone =>
      split
      · next hnone =>
          refine iff_of_false (by simp) ?_
          rintro (⟨h, -⟩ | ⟨factors, h, hdigits, -⟩)
          · exact hone h
          · rw [h.factors?_eq fun digits hmem => ⟨(hdigits digits hmem).1, fun c hc =>
              Text.isDecimalDigit_of_isDigit ((hdigits digits hmem).2 c hc)⟩] at hnone
            cases hnone
      · next factors hsome =>
          obtain ⟨hfactors, hdigits⟩ := factors?_eq_some_iff.mp hsome
          have hnumbers : (∀ d ∈ factors.map Decimal.valueOf, d ≤ maxDimension) ↔
              ∀ digits ∈ factors, Decimal.valueOf digits ≤ maxDimension := List.forall_mem_map
          have hfold := @foldlM_addFactor_eq_ok_iff (Text.trim text) factors 0 0 (by decide) b
          rw [isName_iff hfactors hdigits, hasNumbers_iff, hnumbers, ← Nat.zero_add (List.sum _),
            ← hfold, bind_eq_ok_iff]
          constructor
          · rintro ⟨⟨b, last⟩, h, heq⟩
            cases heq
            exact ⟨last, h⟩
          · rintro ⟨last, h⟩
            exact ⟨(b, last), h, rfl⟩

/-! ## Written names are read back -/

theorem sum_two_pow_vectors (b : Nat) : ((vectors b).map fun i => 2 ^ i).sum = b := by
  induction b using topInduction with
  | zero =>
      rw [vectors, vectorsFrom, if_pos rfl]
      rfl
  | top c u hu ih =>
      rw [vectors_add_top hu, List.map_append, List.sum_append, ih, List.map_singleton,
        List.sum_singleton, Nat.add_comm]

theorem map_valueOf_numbers (b : Nat) :
    (numbers b).map Decimal.valueOf = (vectors b).map (· + 1) := by
  rw [numbers, List.map_map]
  exact List.map_congr_left fun i _ => Decimal.valueOf_toDigits (i + 1)

theorem hasNumbers_numbers (hb : b < 2 ^ maxDimension) :
    HasNumbers b ((numbers b).map Decimal.valueOf) := by
  rw [map_valueOf_numbers]
  refine ⟨?_, List.forall_mem_map.mpr fun i hi => ?_, ?_⟩
  · rw [List.pairwise_map]
    exact (pairwise_vectors b).imp Nat.succ_lt_succ
  · have hlt := lt_two_pow_iff.mp hb i (mem_vectorSet.mpr (mem_vectors.mp hi))
    omega
  · rw [List.map_map]
    exact (sum_two_pow_vectors b).symm

theorem isName_name (hb : b < 2 ^ maxDimension) : IsName (name b).toList b := by
  by_cases hzero : b = 0
  · subst hzero
    exact Or.inl ⟨rfl, rfl⟩
  · exact Or.inr ⟨numbers b, factors_name hzero, fun _ => digits_of_mem_numbers,
      hasNumbers_numbers hb⟩

/-- **The name of a blade is read back as the blade.** -/
theorem ofText_name (hb : b < 2 ^ maxDimension) : ofText (name b).toList = .ok b := by
  rw [ofText_eq_ok_iff, Text.trim_eq_self fun c hc => (inName_of_mem_name hc).isSpace]
  exact isName_name hb

/-- Blades have different names. -/
theorem name_inj {b' : Nat} (hb : b < 2 ^ maxDimension) (hb' : b' < 2 ^ maxDimension)
    (h : name b = name b') : b = b' := by
  have hread := ofText_name hb
  rw [h, ofText_name hb'] at hread
  exact (Except.ok.inj hread).symm

/-! ## Refusals -/

theorem isNameError_of_ofText {e : Error} (h : ofText text = .error e) :
    IsNameError (Text.trim text) e := by
  simp only [ofText] at h
  split at h
  · cases h
  · split at h
    · cases h
      exact .malformed
    · rcases bind_eq_error_iff.mp h with h | ⟨_, -, h⟩
      · exact of_foldlM_eq_error (fun _ _ _ _ => isNameError_of_addFactor) h
      · cases h

/-- **The grammar of blades.** A text is read as a blade iff it is a name of it, with white space
    around it; what is no name is refused, by one of the causes for names; and the name that a blade
    is written with is read back. -/
theorem ofText_grammar :
    (∀ (text : List Char) (b : Nat), ofText text = .ok b ↔ IsName (Text.trim text) b) ∧
    (∀ text : List Char, (∀ b, ¬ IsName (Text.trim text) b) →
      ∃ e, ofText text = .error e ∧ IsNameError (Text.trim text) e ∧ e.kind = .invalidArgument) ∧
    ∀ b < 2 ^ maxDimension, ofText (name b).toList = .ok b := by
  refine ⟨fun text b => ofText_eq_ok_iff, fun text h => ?_, fun b hb => ofText_name hb⟩
  cases hread : ofText text with
  | ok b => exact absurd (ofText_eq_ok_iff.mp hread) (h b)
  | error e =>
      have he := isNameError_of_ofText hread
      exact ⟨e, rfl, he, he.kind⟩

/-- Padded numbers and both ways to join factors make a name; vectors that do not ascend make none;
    the name of the largest blade is read back. -/
theorem ofText_grammar_samples :
    IsName (Text.trim " e01e3^e064\t".toList) (2 ^ 63 + 5) ∧
    (∃ e, ofText "e3^e1".toList = .error e ∧ IsNameError (Text.trim "e3^e1".toList) e ∧
      e.kind = .invalidArgument) ∧
    ofText (name (2 ^ 64 - 1)).toList = .ok (2 ^ 64 - 1) := by
  obtain ⟨hname, herror, hback⟩ := ofText_grammar
  refine ⟨(hname _ _).mp (by decide +kernel), herror _ fun b h => ?_, hback _ (by decide)⟩
  have hrefused : ofText "e3^e1".toList = .error (.vectorsNotAscending "e3^e1") := by
    decide +kernel
  rw [← hname, hrefused] at h
  cases h

end Blade

end GeometricAlgebra
