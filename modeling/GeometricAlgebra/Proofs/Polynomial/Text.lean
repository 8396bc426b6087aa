import GeometricAlgebra.Proofs.Multivector.Writing
import GeometricAlgebra.Proofs.Polynomial.Terms

set_option autoImplicit false

/-! # What the text of a polynomial tells

The text of a polynomial is a sum of its terms, in the order of their monomials. A term has no sign
in it but the one in front, where no atom has one, so the signs of a sum are where its terms end. A
term is a product, and the stars are where its factors end. Its first factor is the size of the
coefficient iff it does not start with a letter; where no size is written, it is one
(`termText_inj`). So the text tells the polynomial (`toText_inj_of_writes`). -/

namespace GeometricAlgebra

namespace Polynomial

open Coefficient Decimal

/-! ## Names of atoms -/

/-- What is not ASCII counts as a letter. -/
def isLetter (c : Char) : Bool := c.isAlpha || 128 ≤ c.toNat

/-- A letter, followed by letters, digits and underscores. -/
def isName (a : String) : Bool :=
  match a.toList with
  | [] => false
  | c :: cs => isLetter c && cs.all fun d => isLetter d || isDigit d || d == '_'

/-- The characters of names and of decimals. -/
def InFactor (c : Char) : Prop :=
  isLetter c = true ∨ isDigit c = true ∨ c = '_' ∨ c = '.'

instance : DecidablePred InFactor := fun c => inferInstanceAs (Decidable (isLetter c = true ∨
  isDigit c = true ∨ c = '_' ∨ c = '.'))

theorem not_isLetter_of_isDigit {c : Char} (hc : isDigit c = true) : isLetter c = false := by
  rw [isDigit_iff] at hc
  have hlower : c.isLower = true ↔ 97 ≤ c.toNat ∧ c.toNat ≤ 122 := by
    rw [Char.isLower, Bool.and_eq_true, decide_eq_true_iff, decide_eq_true_iff]
    rfl
  have hupper : c.isUpper = true ↔ 65 ≤ c.toNat ∧ c.toNat ≤ 90 := by
    rw [Char.isUpper, decide_eq_true_iff]
    rfl
  rw [isLetter, Char.isAlpha, Bool.or_eq_false_iff, Bool.or_eq_false_iff, ← Bool.not_eq_true,
    ← Bool.not_eq_true, hlower, hupper, decide_eq_false_iff_not]
  omega

section Names

variable {a : String}

theorem isName_iff : isName a = true ↔ ∃ c cs, a.toList = c :: cs ∧ isLetter c = true ∧
    ∀ d ∈ cs, isLetter d = true ∨ isDigit d = true ∨ d = '_' := by
  unfold isName
  split
  · next h => simp [h]
  · next c cs h => simp [h, or_assoc]

theorem inFactor_of_isName (ha : isName a = true) {c : Char} (hc : c ∈ a.toList) :
    InFactor c := by
  obtain ⟨d, ds, heq, hd, hds⟩ := isName_iff.mp ha
  rw [heq, List.mem_cons] at hc
  rcases hc with rfl | hc
  · exact Or.inl hd
  · exact (hds c hc).imp_right (Or.imp_right Or.inl)

end Names

/-! ## Terms -/

/-- Numbers with a property are written as a sign and a size, which tell the number together. A size
    is digits and points, never a zero alone, and `1` where it may be left out. -/
structure WritesSizes {κ : Type} [Coefficient κ] (P : κ → Prop) : Prop where
  ne_nil : ∀ x, P x → (text (magnitude x)).toList ≠ []
  isSize : ∀ x, P x → ∀ c ∈ (text (magnitude x)).toList, isDigit c = true ∨ c = '.'
  ne_zero : ∀ x, P x → text (magnitude x) ≠ "0"
  one : ∀ x, P x → eq (magnitude x) (ofInt 1) = true → text (magnitude x) = "1"
  injective : ∀ x y, P x → P y → lt x (ofInt 0) = lt y (ofInt 0) →
    text (magnitude x) = text (magnitude y) → x = y

variable {κ : Type} [Coefficient κ]

/-- The size of a coefficient, where it is written. -/
def sizeText (m : Monomial) (size : κ) : List (List Char) :=
  if m ≠ [] ∧ eq size (ofInt 1) = true then [] else [(text size).toList]

theorem toList_termText (m : Monomial) (size : κ) :
    (termText m size).toList
      = ['*'].intercalate (sizeText m size ++ m.map String.toList) := by
  cases m with
  | nil => simp [termText, sizeText]
  | cons a m =>
      have hstar : "*".toList = ['*'] := rfl
      rw [termText, sizeText]
      by_cases hone : eq size (ofInt 1) = true
      · simp [hone, String.toList_intercalate, hstar]
      · simp [hone, String.toList_intercalate, hstar, List.intercalate_cons_cons]

section Terms

theorem mem_intercalate {separator c : Char} {parts : List (List Char)}
    (hc : c ∈ [separator].intercalate parts) : c = separator ∨ ∃ part ∈ parts, c ∈ part := by
  induction parts with
  | nil => cases hc
  | cons part parts ih =>
      cases parts with
      | nil =>
          rw [List.intercalate_singleton] at hc
          exact Or.inr ⟨part, List.mem_cons_self, hc⟩
      | cons next parts =>
          rw [List.intercalate_cons_cons, List.mem_append, List.mem_append, List.mem_singleton]
            at hc
          rcases hc with (hc | hc) | hc
          · exact Or.inr ⟨part, List.mem_cons_self, hc⟩
          · exact Or.inl hc
          · exact (ih hc).imp_right fun ⟨p, hp, hcp⟩ => ⟨p, List.mem_cons_of_mem _ hp, hcp⟩

variable {P : κ → Prop} {m n : Monomial} {x y : κ}

theorem inFactor_of_mem (hP : WritesSizes P) (hx : P x) (hm : ∀ a ∈ m, isName a = true)
    {factor : List Char} (h : factor ∈ sizeText m (magnitude x) ++ m.map String.toList) {c : Char}
    (hc : c ∈ factor) : InFactor c := by
  rw [List.mem_append, List.mem_map] at h
  obtain h | ⟨a, ha, rfl⟩ := h
  · unfold sizeText at h
    split at h
    · cases h
    · rw [List.mem_singleton.mp h] at hc
      exact Or.inr ((hP.isSize x hx c hc).imp_right Or.inr)
  · exact inFactor_of_isName (hm a ha) hc

theorem sizeText_cases (m : Monomial) (size : κ) :
    sizeText m size = [] ∧ m ≠ [] ∧ eq size (ofInt 1) = true ∨
      sizeText m size = [(text size).toList] := by
  unfold sizeText
  split
  · next h => exact Or.inl ⟨rfl, h⟩
  · exact Or.inr rfl

theorem factors_ne_nil (m : Monomial) (size : κ) :
    sizeText m size ++ m.map String.toList ≠ [] := by
  rcases sizeText_cases m size with ⟨h, hm, -⟩ | h
  · simpa [h] using hm
  · simp [h]

/-- The stars are where the factors end. -/
theorem splitOn_termText (hP : WritesSizes P) (hx : P x) (hm : ∀ a ∈ m, isName a = true) :
    (termText m (magnitude x)).toList.splitOn '*'
      = sizeText m (magnitude x) ++ m.map String.toList := by
  rw [toList_termText]
  refine List.splitOn_intercalate '*' (fun factor hfactor hstar => ?_) (factors_ne_nil m _)
  exact absurd (inFactor_of_mem hP hx hm hfactor hstar) (by decide)

/-- No atom starts like a size. -/
theorem toList_ne_size (hP : WritesSizes P) (hx : P x) {a : String} (ha : isName a = true) :
    a.toList ≠ (text (magnitude x)).toList := by
  obtain ⟨c, cs, heq, hc, -⟩ := isName_iff.mp ha
  intro h
  rcases hP.isSize x hx c (by rw [← h, heq]; exact List.mem_cons_self) with hdigit | rfl
  · rw [not_isLetter_of_isDigit hdigit] at hc
    cases hc
  · revert hc
    decide

/-- **A term is read in one way.** -/
theorem termText_inj (hP : WritesSizes P) (hx : P x) (hy : P y) (hm : ∀ a ∈ m, isName a = true)
    (hn : ∀ a ∈ n, isName a = true) (h : termText m (magnitude x) = termText n (magnitude y)) :
    m = n ∧ text (magnitude x) = text (magnitude y) := by
  have hfactors := splitOn_termText hP hx hm
  rw [h, splitOn_termText hP hy hn] at hfactors
  -- what starts with a letter on one side is no size on the other
  have hatom : ∀ {m n : Monomial} {x : κ}, P x → (∀ a ∈ m, isName a = true) →
      m.map String.toList ≠ (text (magnitude x)).toList :: n.map String.toList := by
    intro m n x hx hm heq
    cases m with
    | nil => cases heq
    | cons a m => exact toList_ne_size hP hx (hm a List.mem_cons_self) (List.cons.inj heq).1
  have hinjective : Function.Injective (List.map String.toList) :=
    List.map_injective_iff.mpr fun _ _ => String.toList_inj.mp
  rcases sizeText_cases m (magnitude x) with ⟨hmx, -, hone⟩ | hmx <;>
    rcases sizeText_cases n (magnitude y) with ⟨hny, -, hone'⟩ | hny <;> rw [hmx, hny] at hfactors
  · refine ⟨hinjective hfactors.symm, ?_⟩
    rw [hP.one x hx hone, hP.one y hy hone']
  · exact absurd hfactors.symm (hatom hy hm)
  · exact absurd hfactors (hatom hx hn)
  · obtain ⟨hsize, hatoms⟩ := List.cons.inj hfactors
    exact ⟨hinjective hatoms.symm, String.toList_inj.mp hsize.symm⟩

/-- A term without a star is an atom or a size. -/
theorem eq_of_termText_eq (hP : WritesSizes P) (hx : P x) (hm : ∀ a ∈ m, isName a = true)
    {w : List Char} (hw : '*' ∉ w) (h : (termText m (magnitude x)).toList = w) :
    (∃ a, isName a = true ∧ a.toList = w) ∨ (text (magnitude x)).toList = w := by
  have hfactors := splitOn_termText hP hx hm
  rw [h, List.splitOn_eq_singleton hw] at hfactors
  rcases sizeText_cases m (magnitude x) with ⟨hmx, -, -⟩ | hmx <;> rw [hmx] at hfactors
  · cases m with
    | nil => cases hfactors
    | cons a m => exact Or.inl ⟨a, hm a List.mem_cons_self, (List.cons.inj hfactors).1.symm⟩
  · exact Or.inr (List.cons.inj hfactors).1.symm

theorem termText_ne_nil (hP : WritesSizes P) (hx : P x) (hm : ∀ a ∈ m, isName a = true) :
    (termText m (magnitude x)).toList ≠ [] := by
  intro h
  obtain ⟨a, ha, hnil⟩ | hnil := eq_of_termText_eq hP hx hm List.not_mem_nil h
  · obtain ⟨c, cs, heq, -⟩ := isName_iff.mp ha
    cases hnil.symm.trans heq
  · exact hP.ne_nil x hx hnil

theorem termText_ne_zero (hP : WritesSizes P) (hx : P x) (hm : ∀ a ∈ m, isName a = true) :
    (termText m (magnitude x)).toList ≠ ['0'] := by
  intro h
  obtain ⟨a, ha, hzero⟩ | hzero := eq_of_termText_eq hP hx hm (by decide) h
  · obtain ⟨c, cs, heq, hc, -⟩ := isName_iff.mp ha
    cases hzero.symm.trans heq
    cases hc
  · exact hP.ne_zero x hx (String.toList_inj.mp hzero)

theorem isSign_of_mem_termText (hP : WritesSizes P) (hx : P x) (hm : ∀ a ∈ m, isName a = true)
    {c : Char} (hc : c ∈ (termText m (magnitude x)).toList) : Terms.isSign c = false := by
  have hchar : c = '*' ∨ InFactor c := by
    rw [toList_termText] at hc
    exact (mem_intercalate hc).imp_right fun ⟨_, hfactor, hmem⟩ =>
      inFactor_of_mem hP hx hm hfactor hmem
  have hne : ∀ d : Char, ¬ (d = '*' ∨ InFactor d) → c ≠ d := fun d hd h => hd (h ▸ hchar)
  rw [Terms.isSign, Bool.or_eq_false_iff, beq_eq_false_iff_ne, beq_eq_false_iff_ne]
  exact ⟨hne '+' (by decide), hne '-' (by decide)⟩

end Terms

/-! ## Sums -/

/-- A term with its sign. -/
def signedText (t : Monomial × κ) : List Char :=
  minus (lt t.2 (ofInt 0)) ++ (termText t.1 (magnitude t.2)).toList

/-- The coefficients have a property, and the atoms are names. -/
structure Displays (P : κ → Prop) (p : Polynomial κ) : Prop where
  coefficient : ∀ t ∈ p.terms.toList, P t.2
  isName : ∀ t ∈ p.terms.toList, ∀ a ∈ t.1, isName a = true

variable {P : κ → Prop} {p q : Polynomial κ}

theorem toList_foldl_signed (rest : List (Monomial × κ)) (first : String)
    (hrest : ∀ t ∈ rest, ∀ c ∈ (termText t.1 (magnitude t.2)).toList, Terms.isSign c = false) :
    (rest.foldl (fun out (t : Monomial × κ) => out ++ (if lt t.2 (ofInt 0) then " - " else " + ")
      ++ termText t.1 (magnitude t.2)) first).toList
      = first.toList ++ (rest.map signedText).flatMap Terms.summand := by
  induction rest generalizing first with
  | nil => simp
  | cons t rest ih =>
      rw [List.forall_mem_cons] at hrest
      have hsummand : Terms.summand (signedText t)
          = (if lt t.2 (ofInt 0) then " - " else " + ").toList
            ++ (termText t.1 (magnitude t.2)).toList := by
        rw [Terms.summand, signedText, Terms.splitMinus_minus_append _ hrest.1]
        cases lt t.2 (ofInt 0) <;> rfl
      rw [List.foldl_cons, ih _ hrest.2, String.toList_append, String.toList_append, List.map_cons,
        List.flatMap_cons, hsummand, List.append_assoc, List.append_assoc, List.append_assoc]

theorem toList_toText (hP : WritesSizes P) (hp : p.Displays P) :
    p.toText.toList = Terms.sumText (p.terms.toList.map signedText) := by
  have hsigns : ∀ t ∈ p.terms.toList, ∀ c ∈ (termText t.1 (magnitude t.2)).toList,
      Terms.isSign c = false :=
    fun t ht c hc => isSign_of_mem_termText hP (hp.coefficient t ht) (hp.isName t ht) hc
  unfold toText
  cases hterms : p.terms.toList with
  | nil => simp [Terms.sumText]
  | cons t rest =>
      rw [hterms, List.forall_mem_cons] at hsigns
      obtain ⟨m, c⟩ := t
      rw [toList_foldl_signed rest _ hsigns.2, String.toList_append]
      cases h : lt c (ofInt 0) <;> simp [signedText, h, minus, Terms.sumText]

theorem isSummand_signedText (hP : WritesSizes P) (hp : p.Displays P) {t : Monomial × κ}
    (ht : t ∈ p.terms.toList) : Terms.IsSummand (signedText t) ∧ signedText t ≠ ['0'] := by
  have hx := hp.coefficient t ht
  have hm := hp.isName t ht
  refine ⟨Terms.isSummand_minus_append _ (termText_ne_nil hP hx hm) fun c hc =>
    isSign_of_mem_termText hP hx hm hc, ?_⟩
  unfold signedText
  cases lt t.2 (ofInt 0)
  · exact termText_ne_zero hP hx hm
  · exact fun h => absurd (List.cons.inj h).1 (by decide)

/-- **The text of a polynomial loses nothing**, where numbers are written as signs and sizes. -/
theorem toText_inj_of_writes (hP : WritesSizes P) (hp : p.Displays P) (hq : q.Displays P)
    (h : p.toText = q.toText) : p = q := by
  rw [← String.toList_inj, toList_toText hP hp, toList_toText hP hq] at h
  have hterms := Terms.sumText_inj (List.forall_mem_map.mpr fun _ => isSummand_signedText hP hp)
    (List.forall_mem_map.mpr fun _ => isSummand_signedText hP hq) h
  refine ext_terms (Std.ExtTreeMap.toList_inj.mp (Multivector.eq_of_map_eq (fun s hs t ht hst => ?_)
    hterms))
  have hsplit := congrArg Terms.splitMinus hst
  have hsigns : ∀ {p : Polynomial κ}, p.Displays P → ∀ t ∈ p.terms.toList,
      Terms.splitMinus (signedText t) = (lt t.2 (ofInt 0), (termText t.1 (magnitude t.2)).toList) :=
    fun hp t ht => Terms.splitMinus_minus_append _ fun c hc =>
      isSign_of_mem_termText hP (hp.coefficient t ht) (hp.isName t ht) hc
  rw [hsigns hp s hs, hsigns hq t ht, Prod.mk.injEq, String.toList_inj] at hsplit
  obtain ⟨hmonomial, hsize⟩ := termText_inj hP (hp.coefficient s hs) (hq.coefficient t ht)
    (hp.isName s hs) (hq.isName t ht) hsplit.2
  exact Prod.ext hmonomial
    (hP.injective _ _ (hp.coefficient s hs) (hq.coefficient t ht) hsplit.1 hsize)

/-! ## Floating-point numbers -/

theorem abs_eq_one_of_beq {x : Float} (h : (x.abs == Float.ofInt 1) = true) :
    x.abs = Float.ofInt 1 := by
  obtain ⟨-, -, heq | ⟨-, hone⟩ | ⟨-, hone⟩⟩ := Float.beq_iff_ne_nan_and_eq.mp h
  · exact heq
  · exact absurd hone (by decide +kernel)
  · exact absurd hone (by decide +kernel)

/-- Finite numbers but zero are written as signs and sizes. -/
theorem writesSizes_plain : WritesSizes fun x : Float => x.isFinite = true ∧ (x == 0) = false := by
  have hwrites := Number.writesPlain_plain
  have habs : ∀ x : Float, x.isFinite = true ∧ (x == 0) = false →
      x.abs.isFinite = true ∧ (x.abs == 0) = false :=
    fun x hx => ⟨Binary.isFinite_abs hx.1, (Binary.abs_beq_zero hx.1).trans hx.2⟩
  have hzero : (Float.ofInt 0) = 0 := by decide +kernel
  constructor
  case ne_nil => exact fun x hx => (Number.chars_plain_abs hx.1 hx.2).1
  case isSize => exact fun x hx => (Number.chars_plain_abs hx.1 hx.2).2
  case ne_zero => exact fun x hx => hwrites.ne_zero x.abs (habs x hx)
  case one =>
    intro x hx h
    have hone : Number.plain (Float.ofInt 1) = "1" := by decide +kernel
    rw [← hone, ← abs_eq_one_of_beq h]
    rfl
  case injective =>
    intro x y hx hy hlt h
    have hsize := hwrites.injective x.abs y.abs (habs x hx) (habs y hy) h
    refine Binary.eq_of_abs_eq hx.1 hx.2 hy.1 hy.2 hsize ?_
    rw [← hzero]
    exact decide_eq_decide.mp hlt

/-- The coefficients are finite and not zero, and the atoms are names. -/
def Displayed (p : Polynomial Float) : Prop :=
  p.Displays fun c => c.isFinite = true ∧ (c == 0) = false

/-- **The text of a polynomial loses nothing.** Two polynomials with the same text are the same, if
    their coefficients are finite numbers but zero and their atoms are names. -/
theorem toText_inj (p q : Polynomial Float) (hp : p.Displayed) (hq : q.Displayed) :
    p.toText = q.toText ↔ p = q :=
  ⟨toText_inj_of_writes writesSizes_plain hp hq, fun h => h ▸ rfl⟩

/-- A product of two atoms is not mistaken for their sum. -/
theorem toText_inj_products :
    let p : Polynomial Float := ⟨((∅ : Std.ExtTreeMap Monomial Float).insert [] (-3)).insert
      ["a", "x_1"] 2⟩
    let q : Polynomial Float := ⟨(((∅ : Std.ExtTreeMap Monomial Float).insert [] (-3)).insert
      ["a"] 2).insert ["x_1"] (-1)⟩
    p.Displayed ∧ q.Displayed ∧ p.toText ≠ q.toText := by
  intro p q
  have hp : p.Displayed := ⟨by decide +kernel, by decide +kernel⟩
  have hq : q.Displayed := ⟨by decide +kernel, by decide +kernel⟩
  refine ⟨hp, hq, fun h => ?_⟩
  have hsize := congrArg size ((toText_inj p q hp hq).mp h)
  revert hsize
  decide +kernel

end Polynomial
end GeometricAlgebra
