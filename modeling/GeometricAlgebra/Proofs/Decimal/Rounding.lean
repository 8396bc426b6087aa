import Mathlib
import GeometricAlgebra.Decimal.Shortest

set_option autoImplicit false

/-! # What rounds to a number

A finite number other than zero is `m * 2 ^ e` for one mantissa and one exponent
(`Binary.IsFinite`). Around it lies the interval of all that rounds to it: up to the midpoints to
its neighbours, which belong to it iff the mantissa is even. Whatever quotient lies in the interval
is rounded to the bits of the number (`roundToBits_of_contains`).

The exponent chosen for the quotient is that of the number, but for one case: the quotient may lie
below a power of two that it rounds to. Then it is rounded to a mantissa of 54 bits, which
carries. -/

namespace GeometricAlgebra

/-! ## Quotients for powers -/

theorem zpow_eq_div {base : ℚ} (hbase : base ≠ 0) (e : Int) :
    base ^ e = base ^ e.toNat / base ^ (-e).toNat := by
  rw [← zpow_natCast, ← zpow_natCast, ← zpow_sub₀ hbase]
  congr 1
  omega

/-- A quotient is about the quotient of the powers that its parts begin with. -/
theorem zpow_le_div_lt_zpow {base n d : ℚ} {i j : Int} (hbase : 0 < base) (hn : base ^ i ≤ n)
    (hn' : n < base ^ (i + 1)) (hd : base ^ j ≤ d) (hd' : d < base ^ (j + 1)) :
    base ^ (i - j - 1) ≤ n / d ∧ n / d < base ^ (i - j + 1) := by
  have hpos : 0 < d := lt_of_lt_of_le (zpow_pos hbase j) hd
  constructor
  · rw [le_div_iff₀ hpos]
    calc base ^ (i - j - 1) * d ≤ base ^ (i - j - 1) * base ^ (j + 1) :=
          mul_le_mul_of_nonneg_left hd'.le (zpow_pos hbase _).le
      _ = base ^ i := by
          rw [← zpow_add₀ hbase.ne']
          congr 1
          ring
      _ ≤ n := hn
  · rw [div_lt_iff₀ hpos]
    calc n < base ^ (i + 1) := hn'
      _ = base ^ (i - j + 1) * base ^ j := by
          rw [← zpow_add₀ hbase.ne']
          congr 1
          ring
      _ ≤ base ^ (i - j + 1) * d := mul_le_mul_of_nonneg_left hd (zpow_pos hbase _).le

theorem two_zpow_pos (e : Int) : (0 : ℚ) < 2 ^ e := zpow_pos (by norm_num) e

theorem two_zpow_le {a b : Int} (h : a ≤ b) : (2 : ℚ) ^ a ≤ 2 ^ b :=
  zpow_le_zpow_right₀ (by norm_num) h

/-- Every number can be counted in units of `2 ^ e`. -/
theorem exists_units (v : ℚ) (e : Int) : ∃ w, v = w * 2 ^ e :=
  ⟨v / 2 ^ e, (div_mul_cancel₀ v (two_zpow_pos e).ne').symm⟩

namespace Binary

/-- The mantissa and the exponent of a finite number other than zero. -/
structure IsFinite (m : Nat) (e : Int) : Prop where
  pos : 0 < m
  mantissa_lt : m < 2 ^ 53
  /-- Only numbers next to zero have fewer than 53 bits. -/
  full : e = minExponent ∨ 2 ^ 52 ≤ m
  exponent_ge : minExponent ≤ e
  exponent_le : e ≤ 971

theorem IsFinite.cast_add_one_le {m : Nat} {e : Int} (h : IsFinite m e) :
    (m : ℚ) + 1 ≤ 2 ^ 53 := by
  have := h.mantissa_lt
  exact_mod_cast this

/-! ## The exponent -/

theorem two_zpow_log2_le {n : Nat} (hn : 0 < n) : (2 : ℚ) ^ (n.log2 : Int) ≤ n := by
  rw [zpow_natCast]
  exact_mod_cast Nat.log2_self_le hn.ne'

theorem lt_two_zpow_log2 (n : Nat) : (n : ℚ) < 2 ^ ((n.log2 : Int) + 1) := by
  have h : n < 2 ^ (n.log2 + 1) := Nat.lt_log2_self
  exact_mod_cast h

/-- The quotient of the shifted numbers is the quotient in units of `2 ^ e`. -/
theorem cast_shift_div (n d : Nat) (e : Int) :
    ((n <<< (-e).toNat : Nat) : ℚ) / (d <<< e.toNat : Nat) = n / d / 2 ^ e := by
  rw [Nat.shiftLeft_eq, Nat.shiftLeft_eq, zpow_eq_div two_ne_zero e]
  push_cast
  field_simp

/-- **The exponent of a quotient** leaves it below `2 ^ 53` units, and is the least one that
    does. -/
theorem exponentFor_spec {n d : Nat} (hn : 0 < n) (hd : 0 < d) :
    minExponent ≤ exponentFor n d ∧
    (n / d : ℚ) < 2 ^ (exponentFor n d + 53) ∧
    (exponentFor n d = minExponent ∨ (2 : ℚ) ^ (exponentFor n d + 52) ≤ n / d) := by
  let e : Int := n.log2 - d.log2
  obtain ⟨hlow, hhigh⟩ : (2 : ℚ) ^ (e - 1) ≤ n / d ∧ (n / d : ℚ) < 2 ^ (e + 1) :=
    zpow_le_div_lt_zpow two_pos (two_zpow_log2_le hn) (lt_two_zpow_log2 n) (two_zpow_log2_le hd)
      (lt_two_zpow_log2 d)
  have hbelow : n <<< (-e).toNat < d <<< e.toNat ↔ (n / d : ℚ) < 2 ^ e := by
    have hpos : (0 : ℚ) < (d <<< e.toNat : Nat) := by
      rw [Nat.shiftLeft_eq]
      positivity
    rw [← Nat.cast_lt (α := ℚ), ← div_lt_one hpos, cast_shift_div, div_lt_one (two_zpow_pos e)]
  have hexponent : exponentFor n d
      = max (if n <<< (-e).toNat < d <<< e.toNat then e - 53 else e - 52) minExponent := by
    simp only [exponentFor, e]
  rw [hexponent]
  refine ⟨le_max_right _ _, ?_⟩
  split
  · next h =>
      rw [hbelow] at h
      refine ⟨h.trans_le (two_zpow_le (by omega)), ?_⟩
      rcases le_total (e - 53) minExponent with hmin | hmin
      · exact Or.inl (max_eq_right hmin)
      · rw [max_eq_left hmin]
        exact Or.inr ((two_zpow_le (by omega)).trans hlow)
  · next h =>
      rw [hbelow, not_lt] at h
      refine ⟨hhigh.trans_le (two_zpow_le (by omega)), ?_⟩
      rcases le_total (e - 52) minExponent with hmin | hmin
      · exact Or.inl (max_eq_right hmin)
      · rw [max_eq_left hmin]
        exact Or.inr ((two_zpow_le (by omega)).trans h)

/-! ## The mantissa -/

/-- **A whole number is nearest** where the quotient is at most one half away from it, if it is even
    or the quotient is not one half away. -/
theorem nearest_eq {n d k : Nat} (hd : 0 < d) (hlow : (k : ℚ) - 1 / 2 ≤ n / d)
    (hhigh : (n / d : ℚ) ≤ k + 1 / 2)
    (htie : k % 2 = 0 ∨ (k : ℚ) - 1 / 2 < n / d ∧ (n / d : ℚ) < k + 1 / 2) : nearest n d = k := by
  have hd' : (0 : ℚ) < d := Nat.cast_pos.mpr hd
  have hlow' : 2 * (k * d) ≤ 2 * n + d := by
    rw [le_div_iff₀ hd'] at hlow
    have : (2 * (k * d) : ℚ) ≤ 2 * n + d := by linarith
    exact_mod_cast this
  have hhigh' : 2 * n ≤ 2 * (k * d) + d := by
    rw [div_le_iff₀ hd'] at hhigh
    have : (2 * n : ℚ) ≤ 2 * (k * d) + d := by linarith
    exact_mod_cast this
  have htie' : k % 2 = 0 ∨ 2 * (k * d) < 2 * n + d ∧ 2 * n < 2 * (k * d) + d := by
    refine htie.imp_right fun ⟨hlow, hhigh⟩ => ?_
    rw [lt_div_iff₀ hd'] at hlow
    rw [div_lt_iff₀ hd'] at hhigh
    have hlow' : (2 * (k * d) : ℚ) < 2 * n + d := by linarith
    have hhigh' : (2 * n : ℚ) < 2 * (k * d) + d := by linarith
    exact ⟨by exact_mod_cast hlow', by exact_mod_cast hhigh'⟩
  have hn : n = n / d * d + n % d := by rw [mul_comm, Nat.div_add_mod]
  have hr : n % d < d := Nat.mod_lt n hd
  -- the number is the quotient without its fraction, or the next one
  have hk : k = n / d ∨ k = n / d + 1 := by
    have hle : k < n / d + 2 := by
      refine Nat.lt_of_mul_lt_mul_right (a := d) ?_
      rw [add_mul]
      omega
    have hge : n / d < k + 1 := by
      refine Nat.lt_of_mul_lt_mul_right (a := d) ?_
      rw [add_mul]
      omega
    omega
  rw [nearest]
  rcases hk with rfl | rfl
  · split
    · rfl
    split
    · omega
    · exact if_pos (by omega)
  · rw [add_mul] at hlow' hhigh' htie'
    split
    · omega
    split
    · rfl
    · exact if_neg (by omega)

end Binary

namespace Decimal

open Binary

/-! ## The interval of a number -/

/-- The number lies in the interval, whose unit is `2 ^ u`. -/
def Interval.Contains (iv : Interval) (u : Int) (v : ℚ) : Prop :=
  if iv.closed then iv.low * 2 ^ u ≤ v ∧ v ≤ iv.high * 2 ^ u
  else iv.low * 2 ^ u < v ∧ v < iv.high * 2 ^ u

/-- How far the interval of a number reaches below it, in units of its last place: to the midpoint,
    and the neighbour below a power of two is only half as far away. -/
def Interval.reachBelow (m : Nat) (e : Int) : ℚ :=
  if m = leastFull ∧ minExponent < e then 1 / 4 else 1 / 2

/-- What lies in the interval of `m * 2 ^ e`, in units of `2 ^ e`. -/
theorem Interval.contains_around_iff {m : Nat} (hm : 0 < m) (e : Int) (w : ℚ) :
    (around m e).Contains (e - 2) (w * 2 ^ e) ↔
      if m % 2 = 0 then m - reachBelow m e ≤ w ∧ w ≤ m + 1 / 2
      else m - reachBelow m e < w ∧ w < m + 1 / 2 := by
  have hpos := two_zpow_pos e
  have hscale : ∀ a : ℚ, a * 2 ^ (e - 2) = a / 4 * 2 ^ e := by
    intro a
    rw [zpow_sub₀ two_ne_zero]
    ring
  have hhigh : ((4 * m + 2 : Nat) : ℚ) / 4 = m + 1 / 2 := by
    push_cast
    ring
  have hlow : ((4 * m - (if m = leastFull ∧ e > minExponent then 1 else 2) : Nat) : ℚ) / 4
      = m - reachBelow m e := by
    unfold reachBelow
    split
    · rw [Nat.cast_sub (by omega)]
      push_cast
      ring
    · rw [Nat.cast_sub (by omega)]
      push_cast
      ring
  simp only [Contains, around, hscale, mul_le_mul_iff_left₀ hpos, mul_lt_mul_iff_left₀ hpos,
    decide_eq_true_eq, hhigh, hlow]

theorem Interval.reachBelow_cases (m : Nat) (e : Int) :
    (reachBelow m e = 1 / 4 ∧ m = leastFull ∧ minExponent < e) ∨
    (reachBelow m e = 1 / 2 ∧ ¬ (m = leastFull ∧ minExponent < e)) := by
  unfold reachBelow
  split
  · next h => exact Or.inl ⟨rfl, h⟩
  · next h => exact Or.inr ⟨rfl, h⟩

theorem Interval.reachBelow_pos (m : Nat) (e : Int) : 0 < reachBelow m e := by
  rcases reachBelow_cases m e with ⟨h, -⟩ | ⟨h, -⟩ <;> norm_num [h]

theorem Interval.reachBelow_le (m : Nat) (e : Int) : reachBelow m e ≤ 1 / 2 := by
  rcases reachBelow_cases m e with ⟨h, -⟩ | ⟨h, -⟩ <;> norm_num [h]

/-- What lies in the interval is at most one half away, and not one half away if the mantissa is
    odd. -/
theorem Interval.of_contains_around {m : Nat} {e : Int} {w : ℚ} (hm : 0 < m)
    (h : (around m e).Contains (e - 2) (w * 2 ^ e)) :
    m - reachBelow m e ≤ w ∧ w ≤ m + 1 / 2 ∧
    (m % 2 = 0 ∨ (m - 1 / 2 : ℚ) < w ∧ w < m + 1 / 2) := by
  rw [contains_around_iff hm] at h
  split at h
  · next heven => exact ⟨h.1, h.2, Or.inl heven⟩
  · have hreach := reachBelow_le m e
    exact ⟨h.1.le, h.2.le, Or.inr ⟨by linarith, h.2⟩⟩

end Decimal

namespace Binary

/-! ## Rounding -/

/-- The exponent of what lies in the interval of a number is that of the number, or the number is
    a power of two and what lies in its interval is below it. -/
theorem exponentFor_of_contains {n d m : Nat} {e : Int} {w : ℚ} (hn : 0 < n) (hd : 0 < d)
    (hfinite : IsFinite m e) (hw : (n / d : ℚ) = w * 2 ^ e)
    (h : (Decimal.Interval.around m e).Contains (e - 2) (w * 2 ^ e)) :
    exponentFor n d = e ∨
    (exponentFor n d = e - 1 ∧ m = leastFull ∧ minExponent < e ∧ w < m) := by
  obtain ⟨hlow, hhigh, -⟩ := Decimal.Interval.of_contains_around hfinite.pos h
  obtain ⟨hmin, hlt, hfull⟩ := exponentFor_spec hn hd
  rw [hw] at hlt hfull
  generalize exponentFor n d = E at *
  have hpos := two_zpow_pos e
  have hbelow : ∀ a : Int, E + 53 ≤ e + a → w < 2 ^ a := by
    intro a ha
    refine lt_of_mul_lt_mul_right ?_ hpos.le
    calc w * 2 ^ e < 2 ^ (E + 53) := hlt
      _ ≤ 2 ^ (a + e) := two_zpow_le (by omega)
      _ = 2 ^ a * 2 ^ e := zpow_add₀ two_ne_zero _ _
  have hleast : (leastFull : ℚ) = 2 ^ 52 := by norm_num [leastFull, Nat.shiftLeft_eq]
  rcases lt_trichotomy E e with hE | hE | hE
  · -- the quotient is below the least mantissa with 53 bits, and rounds to it
    have hw52 : w < 2 ^ 52 := hbelow 52 (by omega)
    have hfull : 2 ^ 52 ≤ m := hfinite.full.resolve_left (by omega)
    have hfull' : (2 ^ 52 : ℚ) ≤ m := by exact_mod_cast hfull
    rcases Decimal.Interval.reachBelow_cases m e with ⟨hreach, hm, -⟩ | ⟨hreach, hwide⟩
    · refine Or.inr ⟨?_, hm, by omega, by rwa [hm, hleast]⟩
      by_contra hcon
      have hw51 : w < 2 ^ 51 := hbelow 51 (by omega)
      rw [hreach] at hlow
      linarith
    · exfalso
      have hne : m ≠ 2 ^ 52 := fun hm => hwide ⟨hm, by omega⟩
      have hfull'' : (2 ^ 52 : ℚ) + 1 ≤ m := by
        have : 2 ^ 52 + 1 ≤ m := by omega
        exact_mod_cast this
      rw [hreach] at hlow
      linarith
  · exact Or.inl hE
  · -- the quotient is below the next power of two, as it rounds to a mantissa of 53 bits
    exfalso
    have hge : (2 : ℚ) ^ (E + 52) ≤ w * 2 ^ e :=
      hfull.resolve_left (by have := hfinite.exponent_ge; omega)
    have hw53 : (2 : ℚ) ^ 53 ≤ w := by
      refine le_of_mul_le_mul_right ?_ hpos
      calc (2 : ℚ) ^ 53 * 2 ^ e = 2 ^ (53 + e) := (zpow_add₀ two_ne_zero 53 e).symm
        _ ≤ 2 ^ (E + 52) := two_zpow_le (by omega)
        _ ≤ w * 2 ^ e := hge
    have hm := hfinite.cast_add_one_le
    linarith

/-- **Whatever lies in the interval of a number is rounded to the number.** -/
theorem roundToBits_of_contains {n d m : Nat} {e : Int} (hn : 0 < n) (hd : 0 < d)
    (hfinite : IsFinite m e) (h : (Decimal.Interval.around m e).Contains (e - 2) (n / d)) :
    roundToBits n d = (e - minExponent).toNat * leastFull + m := by
  obtain ⟨w, hw⟩ := exists_units (n / d) e
  rw [hw] at h
  obtain ⟨hlow, hhigh, htie⟩ := Decimal.Interval.of_contains_around hfinite.pos h
  have hreach := Decimal.Interval.reachBelow_le m e
  have hunits : ∀ E : Int, 0 < d <<< E.toNat ∧
      ((n <<< (-E).toNat : Nat) : ℚ) / (d <<< E.toNat : Nat) = w * 2 ^ (e - E) := by
    intro E
    rw [cast_shift_div, hw, zpow_sub₀ two_ne_zero, Nat.shiftLeft_eq, mul_div_assoc]
    exact ⟨by positivity, rfl⟩
  have hbound : (e - minExponent).toNat * leastFull + m ≤ 2047 * leastFull := by
    have hleast : leastFull = 2 ^ 52 := rfl
    have hmin : minExponent = -1074 := rfl
    have hm := hfinite.mantissa_lt
    have he := hfinite.exponent_le
    have := Nat.mul_le_mul_right leastFull (show (e - minExponent).toNat ≤ 2045 by omega)
    omega
  rcases exponentFor_of_contains hn hd hfinite hw h with hE | ⟨hE, hpow, hmin, hbelow⟩
  · have hnearest : nearest (n <<< (-e).toNat) (d <<< e.toNat) = m := by
      obtain ⟨hd', hquot⟩ := hunits e
      rw [sub_self, zpow_zero, mul_one] at hquot
      refine nearest_eq hd' ?_ ?_ ?_
      · rw [hquot]
        linarith
      · rwa [hquot]
      · rwa [hquot]
    rw [roundToBits, hE, hnearest]
    exact min_eq_left hbound
  · -- in units of half the size, the quotient is at most one half below `2 ^ 53`
    have hnearest : nearest (n <<< (-(e - 1)).toNat) (d <<< (e - 1).toNat) = 2 * leastFull := by
      obtain ⟨hd', hquot⟩ := hunits (e - 1)
      rw [sub_sub_cancel, zpow_one] at hquot
      have hquarter : Decimal.Interval.reachBelow m e = 1 / 4 := if_pos ⟨hpow, hmin⟩
      rw [hquarter, hpow] at hlow
      rw [hpow] at hbelow
      refine nearest_eq hd' ?_ ?_ (Or.inl rfl)
      · rw [hquot]
        push_cast
        linarith
      · rw [hquot]
        push_cast
        linarith
    have hcarry : (e - minExponent).toNat = (e - 1 - minExponent).toNat + 1 := by omega
    have hsum : (e - 1 - minExponent).toNat * leastFull + 2 * leastFull
        = (e - minExponent).toNat * leastFull + m := by
      rw [hcarry, hpow]
      ring
    rw [roundToBits, hE, hnearest, hsum]
    exact min_eq_left hbound

end Binary

end GeometricAlgebra
