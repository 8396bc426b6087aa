import GeometricAlgebra.Blade.Name
import GeometricAlgebra.Proofs.Blade.Vectors
import GeometricAlgebra.Proofs.Decimal.Characters
import GeometricAlgebra.Proofs.Text.Split

set_option autoImplicit false

/-! # The factors of names

A name is the text `e1^e3` of the vectors of a blade. Its digits neither start a factor nor join
two, so a text is split into factors in the only way there is (`factors?_eq_some_iff`); the factors
of a written name number the vectors of its blade (`factors_name`). -/

namespace GeometricAlgebra

namespace Blade

/-! ## Factors -/

/-- A text of factors with the given digits: neighbours are joined by a wedge or by nothing. -/
inductive Factors : List (List Char) → List Char → Prop where
  | last (digits : List Char) : Factors [digits] ('e' :: digits)
  | wedge {l : List (List Char)} {cs : List Char} (digits : List Char) (h : Factors l cs) :
      Factors (digits :: l) ('e' :: (digits ++ '^' :: cs))
  | next {l : List (List Char)} {cs : List Char} (digits : List Char) (h : Factors l cs) :
      Factors (digits :: l) ('e' :: (digits ++ cs))

theorem Factors.exists_cons {l : List (List Char)} {cs : List Char} (h : Factors l cs) :
    ∃ ds, cs = 'e' :: ds := by
  cases h with
  | last digits => exact ⟨_, rfl⟩
  | wedge digits h => exact ⟨_, rfl⟩
  | next digits h => exact ⟨_, rfl⟩

theorem Factors.mem {l : List (List Char)} {cs : List Char} (h : Factors l cs) {c : Char}
    (hc : c ∈ cs) : c = 'e' ∨ c = '^' ∨ ∃ digits ∈ l, c ∈ digits := by
  induction h with
  | last digits =>
      rw [List.mem_cons] at hc
      exact hc.imp_right fun h => Or.inr ⟨digits, List.mem_cons_self, h⟩
  | @wedge l cs digits h ih =>
      rw [List.mem_cons, List.mem_append, List.mem_cons] at hc
      rcases hc with hc | hc | hc | hc
      · exact Or.inl hc
      · exact Or.inr (Or.inr ⟨digits, List.mem_cons_self, hc⟩)
      · exact Or.inr (Or.inl hc)
      · exact (ih hc).imp_right fun h => h.imp_right fun ⟨ds, hmem, hds⟩ =>
          ⟨ds, List.mem_cons_of_mem digits hmem, hds⟩
  | @next l cs digits h ih =>
      rw [List.mem_cons, List.mem_append] at hc
      rcases hc with hc | hc | hc
      · exact Or.inl hc
      · exact Or.inr (Or.inr ⟨digits, List.mem_cons_self, hc⟩)
      · exact (ih hc).imp_right fun h => h.imp_right fun ⟨ds, hmem, hds⟩ =>
          ⟨ds, List.mem_cons_of_mem digits hmem, hds⟩

/-- The digits of a factor are some, all of them decimal digits of any script. -/
def IsFactor (digits : List Char) : Prop :=
  digits ≠ [] ∧ ∀ c ∈ digits, Text.isDecimalDigit c = true

theorem Factors.factors?_eq {l : List (List Char)} {cs : List Char} (h : Factors l cs)
    (hl : ∀ digits ∈ l, IsFactor digits) : factors? cs = some l := by
  have hwedge : Text.isDecimalDigit '^' = false := by decide
  have he : Text.isDecimalDigit 'e' = false := by decide
  induction h with
  | last digits =>
      obtain ⟨hne, hdigits⟩ := hl digits List.mem_cons_self
      simp [factors?, List.takeWhile_eq_self_iff.mpr hdigits, List.dropWhile_eq_nil_iff.mpr hdigits,
        hne]
  | @wedge l cs digits h ih =>
      obtain ⟨hne, hdigits⟩ := hl digits List.mem_cons_self
      have hhead : ∀ c ∈ ('^' :: cs).head?, Text.isDecimalDigit c = false := by simp [hwedge]
      rw [factors?, takeWhile_append_of_head? hdigits hhead,
        dropWhile_append_of_head? hdigits hhead]
      simp [hne, dropWedge, ih fun ds hds => hl ds (List.mem_cons_of_mem digits hds)]
  | @next l cs digits h ih =>
      obtain ⟨hne, hdigits⟩ := hl digits List.mem_cons_self
      obtain ⟨ds, rfl⟩ := h.exists_cons
      have hhead : ∀ c ∈ ('e' :: ds).head?, Text.isDecimalDigit c = false := by simp [he]
      rw [factors?, takeWhile_append_of_head? hdigits hhead,
        dropWhile_append_of_head? hdigits hhead]
      simp [hne, dropWedge, ih fun ds hds => hl ds (List.mem_cons_of_mem digits hds)]

theorem isFactor_takeWhile {cs : List Char}
    (h : ¬ (cs.takeWhile Text.isDecimalDigit).isEmpty = true) :
    IsFactor (cs.takeWhile Text.isDecimalDigit) :=
  ⟨fun hnil => h (List.isEmpty_iff.mpr hnil), fun _ hc => List.mem_takeWhile_imp hc⟩

theorem eq_or_eq_dropWedge (cs : List Char) : cs = '^' :: dropWedge cs ∨ cs = dropWedge cs := by
  unfold dropWedge
  split
  · exact Or.inl rfl
  · exact Or.inr rfl

/-- **A text is split into factors in the one way there is**, as digits neither start a factor nor
    join two. -/
theorem factors?_eq_some_iff {l : List (List Char)} {cs : List Char} :
    factors? cs = some l ↔ Factors l cs ∧ ∀ digits ∈ l, IsFactor digits := by
  refine ⟨fun h => ?_, fun ⟨h, hl⟩ => h.factors?_eq hl⟩
  fun_induction factors? cs generalizing l with
  | case1 => cases h
  | case2 cs digits rest hne =>
      rename_i hrest
      cases h
      have hcs : cs = digits ++ rest := List.takeWhile_append_dropWhile.symm
      refine ⟨?_, List.forall_mem_singleton.mpr (isFactor_takeWhile hne)⟩
      rw [hcs, List.isEmpty_iff.mp hrest, List.append_nil]
      exact .last digits
  | case3 cs digits rest hne hrest =>
      rename_i ih
      obtain ⟨l, hl, rfl⟩ := Option.map_eq_some_iff.mp h
      obtain ⟨hfactors, hall⟩ := ih hl
      have hcs : cs = digits ++ rest := List.takeWhile_append_dropWhile.symm
      refine ⟨?_, List.forall_mem_cons.mpr ⟨isFactor_takeWhile hne, hall⟩⟩
      rw [hcs]
      rcases eq_or_eq_dropWedge rest with hwedge | hnone
      · rw [hwedge]
        exact .wedge digits hfactors
      · rw [hnone]
        exact .next digits hfactors
  | case4 => cases h

/-- The text of factors with the given digits, joined by wedges. -/
def joined (digits : List (List Char)) : List Char :=
  ['^'].intercalate (digits.map ('e' :: ·))

theorem joined_cons_cons (ds ds' : List Char) (rest : List (List Char)) :
    joined (ds :: ds' :: rest) = 'e' :: (ds ++ '^' :: joined (ds' :: rest)) := by
  simp [joined]

theorem factors_joined {l : List (List Char)} (hl : l ≠ []) : Factors l (joined l) := by
  induction l with
  | nil => exact absurd rfl hl
  | cons ds l ih =>
      cases l with
      | nil =>
          rw [joined, List.map_singleton, List.intercalate_singleton]
          exact .last ds
      | cons ds' l =>
          rw [joined_cons_cons]
          exact .wedge ds (ih (List.cons_ne_nil ds' l))

/-! ## Written names -/

/-- The characters of names. -/
def InName (c : Char) : Prop := c = 'e' ∨ c = '^' ∨ Decimal.isDigit c = true

instance : DecidablePred InName := fun c =>
  inferInstanceAs (Decidable (c = 'e' ∨ c = '^' ∨ Decimal.isDigit c = true))

theorem InName.isSpace {c : Char} (h : InName c) : Text.isSpace c = false := by
  obtain rfl | rfl | h := h
  · decide
  · decide
  · exact Text.isSpace_of_isDigit h

/-- The numbers of the vectors of a blade, as digits. -/
def numbers (b : Nat) : List (List Char) := (vectors b).map fun i => Nat.toDigits 10 (i + 1)

theorem digits_of_mem_numbers {b : Nat} {digits : List Char} (h : digits ∈ numbers b) :
    digits ≠ [] ∧ ∀ c ∈ digits, Decimal.isDigit c = true := by
  obtain ⟨i, -, rfl⟩ := List.mem_map.mp h
  exact ⟨Nat.toDigits_ne_nil, fun c => Decimal.isDigit_of_mem_toDigits⟩

theorem name_toList {b : Nat} (hb : b ≠ 0) : (name b).toList = joined (numbers b) := by
  rw [name, if_neg hb, String.toList_intercalate, joined, numbers, List.map_map, List.map_map]
  refine congrArg _ (List.map_congr_left fun i _ => ?_)
  simp [vectorName]
  rfl

theorem factors_name {b : Nat} (hb : b ≠ 0) : Factors (numbers b) (name b).toList := by
  rw [name_toList hb]
  refine factors_joined ?_
  rw [numbers, Ne, List.map_eq_nil_iff, ← List.length_eq_zero_iff, length_vectors,
    grade_eq_zero_iff]
  exact hb

theorem inName_of_mem_name {b : Nat} {c : Char} (hc : c ∈ (name b).toList) : InName c := by
  by_cases hb : b = 0
  · rw [name, if_pos hb] at hc
    obtain rfl : c = '1' := List.mem_singleton.mp hc
    decide
  · refine ((factors_name hb).mem hc).imp_right fun h => h.imp_right ?_
    rintro ⟨digits, hmem, hc⟩
    exact (digits_of_mem_numbers hmem).2 c hc

end Blade

end GeometricAlgebra
