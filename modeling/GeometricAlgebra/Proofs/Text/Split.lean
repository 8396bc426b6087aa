import Mathlib
import GeometricAlgebra.Text.Split

set_option autoImplicit false

/-! # Texts taken apart

Trimming takes white space off both ends and nothing else (`trim_eq_iff`), and the parts of a list
are the texts without a separator that make it up (`parts_eq_iff`). White space around a list ends
up around its first and its last part, where trimming the parts removes it
(`map_trim_parts_trim`). -/

namespace GeometricAlgebra

namespace Text

/-- White space and nothing else. -/
def IsBlank (cs : List Char) : Prop := ∀ c ∈ cs, isSpace c = true

/-- No white space at either end. -/
structure IsTight (cs : List Char) : Prop where
  head? : ∀ c ∈ cs.head?, isSpace c = false
  getLast? : ∀ c ∈ cs.getLast?, isSpace c = false

/-! ## Trimming -/

section Trim

variable {u v cs core : List Char}

theorem isBlank_nil : IsBlank [] := fun _ hc => absurd hc List.not_mem_nil

theorem IsBlank.not_mem (h : IsBlank cs) {c : Char} (hc : isSpace c = false) : c ∉ cs := by
  intro hmem
  rw [h c hmem] at hc
  cases hc

theorem isTight_of_forall (h : ∀ c ∈ cs, isSpace c = false) : IsTight cs where
  head? c hc := h c (List.mem_of_mem_head? hc)
  getLast? c hc := h c (List.mem_of_getLast? hc)

/-- What stands between two texts without white space does not matter. -/
theorem isTight_append (hune : u ≠ []) (hu : ∀ c ∈ u, isSpace c = false) (cs : List Char)
    (hvne : v ≠ []) (hv : ∀ c ∈ v, isSpace c = false) : IsTight (u ++ cs ++ v) where
  head? c hc := by
    rw [List.append_assoc, List.head?_append_of_ne_nil _ hune] at hc
    exact hu c (List.mem_of_mem_head? hc)
  getLast? c hc := by
    rw [List.getLast?_append_of_ne_nil _ hvne] at hc
    exact hv c (List.mem_of_getLast? hc)

theorem dropWhile_eq_self (h : ∀ c ∈ cs.head?, isSpace c = false) : cs.dropWhile isSpace = cs := by
  cases cs with
  | nil => rfl
  | cons c cs => exact List.dropWhile_cons_of_neg (by simp [h c rfl])

theorem trim_of_isTight (h : IsTight cs) : trim cs = cs := by
  rw [trim, dropWhile_eq_self h.head?, dropWhile_eq_self, List.reverse_reverse]
  rw [List.head?_reverse]
  exact h.getLast?

/-- A text without white space is trimmed already. -/
theorem trim_eq_self (h : ∀ c ∈ cs, isSpace c = false) : trim cs = cs :=
  trim_of_isTight (isTight_of_forall h)

theorem trim_blank_append (hu : IsBlank u) (cs : List Char) : trim (u ++ cs) = trim cs := by
  rw [trim, List.dropWhile_append_of_pos hu, ← trim]

theorem trim_append_blank (hv : IsBlank v) (cs : List Char) : trim (cs ++ v) = trim cs := by
  rw [trim, trim, List.dropWhile_append]
  split
  · next hempty =>
      rw [List.isEmpty_iff.mp hempty, List.dropWhile_eq_nil_iff.mpr hv]
  · rw [List.reverse_append, List.dropWhile_append_of_pos fun c hc => hv c (List.mem_reverse.mp hc)]

/-- What trimming takes off is white space. -/
theorem exists_eq_append_trim (cs : List Char) :
    ∃ u v, IsBlank u ∧ IsBlank v ∧ cs = u ++ trim cs ++ v := by
  refine ⟨cs.takeWhile isSpace, ((cs.dropWhile isSpace).reverse.takeWhile isSpace).reverse,
    fun c hc => List.mem_takeWhile_imp hc, fun c hc => ?_, ?_⟩
  · exact List.mem_takeWhile_imp (List.mem_reverse.mp hc)
  · rw [List.append_assoc, trim, ← List.reverse_append, List.takeWhile_append_dropWhile,
      List.reverse_reverse, List.takeWhile_append_dropWhile]

theorem isSpace_of_mem_head?_dropWhile (cs : List Char) :
    ∀ c ∈ (cs.dropWhile isSpace).head?, isSpace c = false := by
  intro c hc
  have hnot := List.head?_dropWhile_not isSpace cs
  rwa [hc] at hnot

theorem isTight_trim (cs : List Char) : IsTight (trim cs) := by
  refine ⟨fun c hc => isSpace_of_mem_head?_dropWhile cs c ?_, fun c hc => ?_⟩
  · -- what is left starts like the text without the white space in front
    obtain ⟨v, hv⟩ : trim cs <+: cs.dropWhile isSpace := by
      rw [trim, ← List.reverse_suffix, List.reverse_reverse]
      exact List.dropWhile_suffix isSpace
    rw [← hv, List.head?_append, Option.mem_def.mp hc]
    rfl
  · rw [trim, List.getLast?_reverse] at hc
    exact isSpace_of_mem_head?_dropWhile _ c hc

/-- **Trimming takes off the white space at both ends.** -/
theorem trim_eq_iff :
    trim cs = core ↔ IsTight core ∧ ∃ u v, IsBlank u ∧ IsBlank v ∧ cs = u ++ core ++ v := by
  constructor
  · rintro rfl
    exact ⟨isTight_trim cs, exists_eq_append_trim cs⟩
  · rintro ⟨htight, u, v, hu, hv, rfl⟩
    rw [trim_append_blank hv, trim_blank_append hu, trim_of_isTight htight]

end Trim

/-! ## Parts of a list -/

section Parts

variable {separator : Char} {cs v : List Char} {ps : List (List Char)}

theorem parts_eq_splitOn (separator : Char) (cs : List Char) :
    parts separator cs = cs.splitOn separator := by
  rw [List.splitOn]
  induction cs with
  | nil => rfl
  | cons c cs ih =>
      rw [parts, ih, List.splitOnP_cons_eq_if_modifyHead]
      simp only [beq_iff_eq]
      split
      · rfl
      · split
        · next h => exact absurd h (List.splitOnP_ne_nil _ _)
        · next h => rw [h, List.modifyHead_cons]

theorem not_mem_of_mem_parts {p : List Char} (hp : p ∈ parts separator cs) : separator ∉ p := by
  induction cs generalizing p with
  | nil => simp_all [parts]
  | cons c cs ih =>
      rw [parts] at hp
      split at hp
      · rcases List.mem_cons.mp hp with rfl | hp
        · exact List.not_mem_nil
        · exact ih hp
      · next hc =>
          split at hp
          · rw [List.mem_singleton.mp hp]
            simp [Ne.symm hc]
          · next part rest h =>
              rcases List.mem_cons.mp hp with rfl | hp
              · have := ih (h ▸ List.mem_cons_self)
                simp [Ne.symm hc, this]
              · exact ih (h ▸ List.mem_cons_of_mem part hp)

/-- **The parts of a list** are texts without a separator, which put together are the list. -/
theorem parts_eq_iff :
    parts separator cs = ps ↔
      ps ≠ [] ∧ (∀ p ∈ ps, separator ∉ p) ∧ cs = [separator].intercalate ps := by
  rw [parts_eq_splitOn]
  constructor
  · rintro rfl
    refine ⟨List.splitOn_ne_nil _ _, fun p hp => ?_, (List.intercalate_splitOn separator).symm⟩
    exact not_mem_of_mem_parts (by rwa [parts_eq_splitOn])
  · rintro ⟨hne, hfree, rfl⟩
    exact List.splitOn_intercalate separator hfree hne

/-- What stands in front of a list, without a separator in it, goes to the first part. -/
theorem append_parts (hv : separator ∉ v) (cs : List Char) :
    parts separator (v ++ cs) = (parts separator cs).modifyHead (v ++ ·) := by
  obtain ⟨p, rest, hparts⟩ :=
    List.exists_cons_of_ne_nil (parts_eq_iff.mp (rfl : parts separator cs = _)).1
  rw [hparts, List.modifyHead_cons]
  induction v with
  | nil => rw [List.nil_append, hparts, List.nil_append]
  | cons c v ih =>
      rw [List.mem_cons, not_or] at hv
      rw [List.cons_append, parts, if_neg (Ne.symm hv.1), ih hv.2, List.cons_append]

/-- What follows a list, without a separator in it, goes to the last part. -/
theorem parts_append (hv : separator ∉ v) (cs : List Char) :
    List.Forall₂ (fun p q => q = p ∨ q = p ++ v) (parts separator cs)
      (parts separator (cs ++ v)) := by
  induction cs with
  | nil =>
      have hsingle : parts separator v = [v] :=
        parts_eq_iff.mpr ⟨List.cons_ne_nil v [], by simpa using hv, by simp⟩
      rw [List.nil_append, hsingle]
      exact List.Forall₂.cons (Or.inr rfl) List.Forall₂.nil
  | cons c cs ih =>
      by_cases hc : c = separator
      · rw [List.cons_append, parts, parts, if_pos hc, if_pos hc]
        exact List.Forall₂.cons (Or.inl rfl) ih
      · have hcons : ∀ ds, parts separator (c :: ds) = (parts separator ds).modifyHead ([c] ++ ·) :=
          append_parts (v := [c]) (by simpa using Ne.symm hc)
        rw [List.cons_append, hcons, hcons]
        generalize parts separator cs = ps at ih
        generalize parts separator (cs ++ v) = qs at ih
        cases ih with
        | nil => exact List.Forall₂.nil
        | cons hpart hrest =>
            refine List.Forall₂.cons ?_ hrest
            rcases hpart with rfl | rfl
            · exact Or.inl rfl
            · exact Or.inr rfl

/-- **Trimming a list changes no trimmed part of it.** -/
theorem map_trim_parts_trim (hseparator : isSpace separator = false) (cs : List Char) :
    (parts separator (trim cs)).map trim = (parts separator cs).map trim := by
  obtain ⟨u, v, hu, hv, heq⟩ := exists_eq_append_trim cs
  have hright : (parts separator (trim cs)).map trim
      = (parts separator (trim cs ++ v)).map trim := by
    have happend := parts_append (hv.not_mem hseparator) (trim cs)
    generalize parts separator (trim cs) = ps at happend ⊢
    generalize parts separator (trim cs ++ v) = qs at happend ⊢
    induction happend with
    | nil => rfl
    | cons hpart _ ih =>
        rw [List.map_cons, List.map_cons, ih]
        rcases hpart with rfl | rfl
        · rfl
        · rw [trim_append_blank hv]
  have hleft : (parts separator (u ++ (trim cs ++ v))).map trim
      = (parts separator (trim cs ++ v)).map trim := by
    rw [append_parts (hu.not_mem hseparator)]
    cases parts separator (trim cs ++ v) with
    | nil => rfl
    | cons p rest => rw [List.modifyHead_cons, List.map_cons, List.map_cons, trim_blank_append hu]
  rw [hright, ← hleft, ← List.append_assoc, ← heq]

end Parts

/-- A piece of text whose first character does not occur does not occur. -/
theorem occursIn_eq_false {c : Char} {cs : List Char} (h : c ∉ cs) (piece : List Char) :
    occursIn (c :: piece) cs = false := by
  induction cs with
  | nil => rfl
  | cons d cs ih =>
      rw [List.mem_cons, not_or] at h
      rw [occursIn, ih h.2, Bool.or_false, List.isPrefixOf_cons_cons, beq_eq_false_iff_ne.mpr h.1,
        Bool.false_and]

end Text

end GeometricAlgebra
