import Mathlib
import GeometricAlgebra.Decimal.Read

set_option autoImplicit false

/-! # Digits and the numbers they write

The digits of a number in base ten are read back as the number. They are digits of ASCII alone, at
least one of them, and the first is a zero only where it is the only one. -/

namespace GeometricAlgebra

/-! ## The front of a list -/

section Front

variable {β : Type} {p : β → Bool} {l rest : List β}

theorem takeWhile_append_of_head? (hl : ∀ x ∈ l, p x = true)
    (hrest : ∀ c ∈ rest.head?, p c = false) :
    (l ++ rest).takeWhile p = l := by
  rw [List.takeWhile_append_of_pos hl]
  cases rest with
  | nil => simp
  | cons c rest => rw [List.takeWhile_cons_of_neg (by simp [hrest c rfl]), List.append_nil]

theorem dropWhile_append_of_head? (hl : ∀ x ∈ l, p x = true)
    (hrest : ∀ c ∈ rest.head?, p c = false) :
    (l ++ rest).dropWhile p = rest := by
  rw [List.dropWhile_append_of_pos hl]
  cases rest with
  | nil => rfl
  | cons c rest => exact List.dropWhile_cons_of_neg (by simp [hrest c rfl])

/-- Texts that first leave a class of characters at a given place are put together in one way. -/
theorem append_cons_inj {l' rest' : List β} {x x' : β} (hl : ∀ y ∈ l, p y = true)
    (hl' : ∀ y ∈ l', p y = true) (hx : p x = false) (hx' : p x' = false)
    (h : l ++ x :: rest = l' ++ x' :: rest') : l = l' ∧ x = x' ∧ rest = rest' := by
  have hfront := congrArg (List.takeWhile p) h
  rw [takeWhile_append_of_head? hl (by simpa using hx),
    takeWhile_append_of_head? hl' (by simpa using hx')] at hfront
  subst hfront
  exact ⟨rfl, List.cons.inj (List.append_cancel_left h)⟩

end Front

namespace Decimal

/-! ## Digits -/

theorem isDigit_iff {c : Char} : isDigit c = true ↔ 48 ≤ c.toNat ∧ c.toNat ≤ 57 := by
  rw [isDigit, Bool.and_eq_true, decide_eq_true_eq, decide_eq_true_eq, Char.le_def, Char.le_def,
    UInt32.le_iff_toNat_le, UInt32.le_iff_toNat_le]
  rfl

theorem isDigit_of_mem_toDigits {n : Nat} {c : Char} (hc : c ∈ Nat.toDigits 10 n) :
    isDigit c = true :=
  Nat.isDigit_of_mem_toDigits (by decide) (by decide) hc

theorem all_isDigit_toDigits (n : Nat) : (Nat.toDigits 10 n).all isDigit = true :=
  List.all_eq_true.mpr fun _ => isDigit_of_mem_toDigits

theorem valueOf_toDigits (n : Nat) : valueOf (Nat.toDigits 10 n) = n :=
  Nat.ofDigitChars_ten_toDigits

theorem valueOf_append (l m : List Char) :
    valueOf (l ++ m) = valueOf l * 10 ^ m.length + valueOf m := by
  calc valueOf (l ++ m) = Nat.ofDigitChars 10 m (valueOf l) := Nat.ofDigitChars_append 0
    _ = 10 ^ m.length * valueOf l + valueOf m := Nat.ofDigitChars_eq_ofDigitChars_zero
    _ = valueOf l * 10 ^ m.length + valueOf m := by rw [mul_comm]

theorem valueOf_replicate_zero (n : Nat) : valueOf (List.replicate n '0') = 0 :=
  Nat.ofDigitChars_replicate_zero

theorem toDigits_eq_cons {n : Nat} (hn : 0 < n) :
    ∃ c cs, Nat.toDigits 10 n = c :: cs ∧ c ≠ '0' := by
  induction n using Nat.strong_induction_on with
  | h n ih =>
      rw [Nat.toDigits_eq_if (by decide)]
      split
      · exact ⟨_, [], rfl, by rw [Ne, Nat.digitChar_eq_zero]; omega⟩
      · next hge =>
          obtain ⟨c, cs, hcs, hc⟩ := ih (n / 10) (by omega) (by omega)
          exact ⟨c, cs ++ [Nat.digitChar (n % 10)], by rw [hcs, List.cons_append], hc⟩

end Decimal

end GeometricAlgebra
