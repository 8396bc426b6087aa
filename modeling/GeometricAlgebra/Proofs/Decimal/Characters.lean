import GeometricAlgebra.Proofs.Decimal.Digits
import GeometricAlgebra.Text.Character

set_option autoImplicit false

/-! # The characters of numbers

A text that is read as a number has no other characters than those of literals and of the names of
infinity and not-a-number (`inNumber_of_readFloat?`), so no white space and nothing that separates
numbers in a list. -/

namespace GeometricAlgebra

namespace Text

theorem isDecimalDigit_of_isDigit {c : Char} (hc : Decimal.isDigit c = true) :
    isDecimalDigit c = true := by
  rw [Decimal.isDigit_iff] at hc
  refine List.any_eq_true.mpr ⟨48, by decide, ?_⟩
  rw [Bool.and_eq_true, decide_eq_true_eq, decide_eq_true_eq]
  exact ⟨hc.1, Nat.lt_succ_of_le hc.2⟩

theorem isSpace_of_isDigit {c : Char} (hc : Decimal.isDigit c = true) : isSpace c = false := by
  rw [Decimal.isDigit_iff] at hc
  simp [isSpace, spaceRanges]
  omega

end Text

namespace Decimal

/-- The characters of literals and of the names of infinity and not-a-number. -/
def InNumber (c : Char) : Prop :=
  isDigit c = true ∨ c ∈ ['+', '-', '.', 'e', 'E'] ∨ c.toLower ∈ ['i', 'n', 'f', 't', 'y', 'a']

instance : DecidablePred InNumber := fun c => inferInstanceAs (Decidable (isDigit c = true ∨
  c ∈ ['+', '-', '.', 'e', 'E'] ∨ c.toLower ∈ ['i', 'n', 'f', 't', 'y', 'a']))

variable {c : Char} {cs : List Char}

theorem not_isUpper_of_isDigit (hc : isDigit c = true) : ¬ c.isUpper = true := by
  rw [isDigit_iff] at hc
  rw [Char.isUpper, decide_eq_true_iff]
  rintro ⟨hlow, -⟩
  have : 65 ≤ c.toNat := hlow
  omega

theorem not_isUpper_of_isSpace (hc : Text.isSpace c = true) : ¬ c.isUpper = true := by
  rw [Char.isUpper, decide_eq_true_iff]
  rintro ⟨hlow, hhigh⟩
  have hlow : 65 ≤ c.toNat := hlow
  have hhigh : c.toNat ≤ 90 := hhigh
  simp [Text.isSpace, Text.spaceRanges] at hc
  omega

theorem InNumber.isSpace (h : InNumber c) : Text.isSpace c = false := by
  have hsigns : ∀ d ∈ ['+', '-', '.', 'e', 'E'], Text.isSpace d = false := by
    simp [Text.isSpace, Text.spaceRanges]
  have hletters : ∀ d ∈ ['i', 'n', 'f', 't', 'y', 'a'], Text.isSpace d = false := by
    simp [Text.isSpace, Text.spaceRanges]
  rcases h with h | h | h
  · exact Text.isSpace_of_isDigit h
  · exact hsigns c h
  · by_contra hspace
    rw [Bool.not_eq_false] at hspace
    rw [Char.toLower_eq_of_not_isUpper (not_isUpper_of_isSpace hspace)] at h
    rw [hletters c h] at hspace
    cases hspace

theorem eq_or_mem_splitSign (hc : c ∈ cs) : c = '-' ∨ c = '+' ∨ c ∈ (splitSign cs).2 := by
  unfold splitSign
  split
  · exact (List.mem_cons.mp hc).imp_right Or.inr
  · exact (List.mem_cons.mp hc).elim (fun h => Or.inr (Or.inl h)) fun h => Or.inr (Or.inr h)
  · exact Or.inr (Or.inr hc)

theorem inNumber_of_splitSign (h : ∀ c ∈ (splitSign cs).2, InNumber c) (hc : c ∈ cs) :
    InNumber c := by
  obtain rfl | rfl | hc := eq_or_mem_splitSign hc
  · decide
  · decide
  · exact h c hc

theorem inNumber_of_readExponent? {e : Int} (h : readExponent? cs = some e) (hc : c ∈ cs) :
    InNumber c := by
  refine inNumber_of_splitSign (fun c hc => ?_) hc
  simp only [readExponent?] at h
  split at h
  · cases h
  · next hdigits =>
      rw [Bool.or_eq_true, not_or, Bool.not_eq_true', Bool.not_eq_false, List.all_eq_true]
        at hdigits
      exact Or.inl (hdigits.2 c hc)

theorem inNumber_of_mem_takeWhile (hc : c ∈ cs.takeWhile isDigit) : InNumber c :=
  Or.inl (List.mem_takeWhile_imp hc)

theorem inNumber_of_exponent {decimal : Int → Decimal} {d : Decimal} {mark : Char}
    (h : (if mark = 'e' ∨ mark = 'E' then (readExponent? cs).map decimal else none) = some d)
    (hc : c ∈ mark :: cs) : InNumber c := by
  obtain ⟨hmark, h⟩ := Option.ite_none_right_eq_some.mp h
  obtain ⟨e, h, -⟩ := Option.map_eq_some_iff.mp h
  rcases List.mem_cons.mp hc with rfl | hc
  · rcases hmark with rfl | rfl <;> decide
  · exact inNumber_of_readExponent? h hc

theorem inNumber_of_readUnsigned? {d : Decimal} (h : readUnsigned? cs = some d) (hc : c ∈ cs) :
    InNumber c := by
  rw [← List.takeWhile_append_dropWhile (p := isDigit) (l := cs), List.mem_append] at hc
  refine hc.elim inNumber_of_mem_takeWhile fun hc => ?_
  simp only [readUnsigned?] at h
  split at h
  · next rest heq =>
      rw [heq, List.mem_cons, ← List.takeWhile_append_dropWhile (p := isDigit) (l := rest),
        List.mem_append] at hc
      rcases hc with rfl | hc | hc
      · decide
      · exact inNumber_of_mem_takeWhile hc
      · cases hexponent : rest.dropWhile isDigit with
        | nil =>
            rw [hexponent] at hc
            cases hc
        | cons mark digits =>
            rw [hexponent] at h hc
            exact inNumber_of_exponent (Option.ite_none_left_eq_some.mp h).2 hc
  · cases hexponent : cs.dropWhile isDigit with
    | nil =>
        rw [hexponent] at hc
        cases hc
    | cons mark digits =>
        rw [hexponent] at h hc
        exact inNumber_of_exponent (Option.ite_none_left_eq_some.mp h).2 hc

theorem inNumber_of_readFloat? {text : String} {x : Float} (h : readFloat? text = some x)
    (hc : c ∈ text.toList) : InNumber c := by
  refine inNumber_of_splitSign (fun c hc => ?_) hc
  have hword : ∀ word : List Char, (splitSign text.toList).2.map Char.toLower = word →
      (∀ w ∈ word, w ∈ ['i', 'n', 'f', 't', 'y', 'a']) → InNumber c := by
    rintro _ rfl hword
    exact Or.inr (Or.inr (hword _ (List.mem_map_of_mem hc)))
  simp only [readFloat?] at h
  split at h
  · next hinfinity =>
      rcases hinfinity with heq | heq
      · exact hword _ heq (by simp)
      · exact hword _ heq (by simp)
  · split at h
    · next hnan => exact hword _ hnan (by simp)
    · obtain ⟨d, h, -⟩ := Option.map_eq_some_iff.mp h
      exact inNumber_of_readUnsigned? h hc

end Decimal

end GeometricAlgebra
