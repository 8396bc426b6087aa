import GeometricAlgebra.Proofs.Decimal.Rounding

set_option autoImplicit false

/-! # The shortest decimal lies in the interval

A decimal is written for a number from the multiples of a power of ten that lie in the interval of
the number. Of each power only the two multiples next to the number are tried (`onGrid?_cases`).
Seventeen digits are always enough: then the multiples are closer to each other than the ends of
the interval, unless the number is a power of two, and then the end above it is still far enough
away (`onGrid?_seventeen`). -/

namespace GeometricAlgebra

namespace Decimal

open Binary

/-! ## Values -/

/-- The number that a decimal stands for. -/
def value (d : Decimal) : ℚ := d.digits * 10 ^ d.exponent

theorem ten_zpow_pos (e : Int) : (0 : ℚ) < 10 ^ e := zpow_pos (by norm_num) e

theorem ten_zpow_le {a b : Int} (h : a ≤ b) : (10 : ℚ) ^ a ≤ 10 ^ b :=
  zpow_le_zpow_right₀ (by norm_num) h

theorem value_trimZeros (limit : Nat) (d : Decimal) : (trimZeros limit d).value = d.value := by
  induction limit generalizing d with
  | zero => rfl
  | succ limit ih =>
      rw [trimZeros]
      split
      · next h =>
          have hdigits : (d.digits : ℚ) = 10 * (d.digits / 10 : Nat) := by
            have : d.digits = 10 * (d.digits / 10) := by omega
            exact_mod_cast this
          rw [ih, value, value, hdigits, zpow_add₀ (by norm_num)]
          ring
      · rfl

theorem powerRatio_spec (base : Nat) (hbase : 0 < base) (e : Int) :
    ∃ p q, powerRatio base e = (p, q) ∧ 0 < p ∧ 0 < q ∧ (p / q : ℚ) = (base : ℚ) ^ e := by
  refine ⟨_, _, rfl, Nat.pow_pos hbase, Nat.pow_pos hbase, ?_⟩
  rw [zpow_eq_div (Nat.cast_ne_zero.mpr hbase.ne'), Nat.pow_eq, Nat.pow_eq, Nat.cast_pow,
    Nat.cast_pow]

/-! ## The number of digits -/

theorem lt_ten_pow_length (n : Nat) : n < 10 ^ (Nat.toDigits 10 n).length :=
  (Nat.length_toDigits_le_iff (by decide) Nat.length_toDigits_pos).mp le_rfl

theorem ten_pow_le_of_length {n k : Nat} (hn : 0 < n) (hk : k < (Nat.toDigits 10 n).length) :
    10 ^ k ≤ n := by
  rcases Nat.eq_zero_or_pos k with rfl | hpos
  · exact hn
  · by_contra hlt
    exact absurd ((Nat.length_toDigits_le_iff (by decide) hpos).mpr (not_le.mp hlt)) (not_le.mpr hk)

/-- The first digit of a whole number is at the place of its power of ten. -/
theorem ten_zpow_le_cast {n : Nat} (hn : 0 < n) :
    (10 : ℚ) ^ ((Nat.toDigits 10 n).length - 1 : Int) ≤ n := by
  have hlen : 0 < (Nat.toDigits 10 n).length := Nat.length_toDigits_pos
  have hle : 10 ^ ((Nat.toDigits 10 n).length - 1) ≤ n := ten_pow_le_of_length hn (by omega)
  have hexp : ((Nat.toDigits 10 n).length - 1 : Int) = ((Nat.toDigits 10 n).length - 1 : Nat) := by
    omega
  rw [hexp, zpow_natCast]
  exact_mod_cast hle

theorem cast_lt_ten_zpow (n : Nat) :
    (n : ℚ) < 10 ^ ((Nat.toDigits 10 n).length - 1 + 1 : Int) := by
  rw [sub_add_cancel, zpow_natCast]
  exact_mod_cast lt_ten_pow_length n

/-- **The decimal exponent** of a quotient is that of the next power of ten above it. -/
theorem decimalExponent_spec {n d : Nat} (hn : 0 < n) (hd : 0 < d) :
    (10 : ℚ) ^ (decimalExponent n d - 1) ≤ n / d ∧ (n / d : ℚ) < 10 ^ decimalExponent n d := by
  have hd' : (0 : ℚ) < d := Nat.cast_pos.mpr hd
  let k : Int := (Nat.toDigits 10 n).length - (Nat.toDigits 10 d).length
  have hk : k = ((Nat.toDigits 10 n).length - 1 : Int) - ((Nat.toDigits 10 d).length - 1 : Int) :=
    (sub_sub_sub_cancel_right _ _ 1).symm
  obtain ⟨hlow, hhigh⟩ : (10 : ℚ) ^ (k - 1) ≤ n / d ∧ (n / d : ℚ) < 10 ^ (k + 1) := by
    rw [hk]
    exact zpow_le_div_lt_zpow (by norm_num) (ten_zpow_le_cast hn) (cast_lt_ten_zpow n)
      (ten_zpow_le_cast hd) (cast_lt_ten_zpow d)
  obtain ⟨p, q, hpq, hp, hq, hratio⟩ := powerRatio_spec 10 (by decide) k
  have hp' : (0 : ℚ) < p := Nat.cast_pos.mpr hp
  have hq' : (0 : ℚ) < q := Nat.cast_pos.mpr hq
  have hbelow : n * q < d * p ↔ (n / d : ℚ) < 10 ^ k := by
    have hten : (10 : ℚ) ^ k = p / q := hratio.symm
    rw [hten, div_lt_div_iff₀ hd' hq', mul_comm (p : ℚ)]
    exact_mod_cast Iff.rfl
  have hexponent : decimalExponent n d = if n * q < d * p then k else k + 1 := by
    rw [decimalExponent, hpq]
  rw [hexponent]
  split
  · next h => exact ⟨hlow, hbelow.mp h⟩
  · next h =>
      rw [hbelow, not_lt] at h
      rw [add_sub_cancel_right]
      exact ⟨h, hhigh⟩

/-! ## The multiples of a power of ten -/

section Grid

/-- Whether `k * b` is in the interval, whose unit is `a`. -/
def Interval.inside (iv : Interval) (a b k : Nat) : Bool :=
  if iv.closed then iv.low * a ≤ k * b ∧ k * b ≤ iv.high * a
  else iv.low * a < k * b ∧ k * b < iv.high * a

variable {iv : Interval} {u e : Int} {un ud gn gd : Nat}

/-- The factors are chosen so that whole numbers compare like the numbers of the two units. -/
theorem mul_le_mul_units_iff (hu : (un / ud : ℚ) = 2 ^ u) (hg : (gn / gd : ℚ) = 10 ^ e)
    (hud : 0 < ud) (hgd : 0 < gd) (x k : Nat) :
    (x * (un * gd) ≤ k * (gn * ud) ↔ (x : ℚ) * 2 ^ u ≤ k * 10 ^ e) ∧
    (k * (gn * ud) ≤ x * (un * gd) ↔ (k : ℚ) * 10 ^ e ≤ x * 2 ^ u) := by
  have hud' : (0 : ℚ) < ud := Nat.cast_pos.mpr hud
  have hgd' : (0 : ℚ) < gd := Nat.cast_pos.mpr hgd
  rw [← hu, ← hg, mul_div_assoc', mul_div_assoc', div_le_div_iff₀ hud' hgd',
    div_le_div_iff₀ hgd' hud', mul_assoc, mul_assoc]
  constructor
  · exact_mod_cast Iff.rfl
  · exact_mod_cast Iff.rfl

theorem Interval.inside_iff (hu : (un / ud : ℚ) = 2 ^ u) (hg : (gn / gd : ℚ) = 10 ^ e)
    (hud : 0 < ud) (hgd : 0 < gd) (k : Nat) :
    iv.inside (un * gd) (gn * ud) k = true ↔ iv.Contains u (k * 10 ^ e) := by
  obtain ⟨hlow, hlow'⟩ := mul_le_mul_units_iff hu hg hud hgd iv.low k
  obtain ⟨hhigh, hhigh'⟩ := mul_le_mul_units_iff hu hg hud hgd iv.high k
  unfold inside Contains
  split
  · rw [decide_eq_true_iff, hlow, hhigh']
  · rw [decide_eq_true_iff, ← not_le, ← not_le, ← not_le, ← not_le, hlow', hhigh]

/-- Of the multiples of a power of ten, one that is next to the number and in its interval is found,
    if there is any. -/
theorem onGrid?_cases (tie : Tie) (iv : Interval) (u e : Int) :
    (∃ k : Nat, onGrid? tie iv u e = some k ∧ iv.Contains u (k * 10 ^ e)) ∨
    (onGrid? tie iv u e = none ∧ ∃ k : Nat,
      (k * 10 ^ e : ℚ) ≤ iv.value * 2 ^ u ∧ (iv.value * 2 ^ u : ℚ) < (k + 1) * 10 ^ e ∧
      ¬ iv.Contains u (k * 10 ^ e) ∧ ¬ iv.Contains u ((k + 1) * 10 ^ e)) := by
  obtain ⟨un, ud, hunit, hun, hud, hu⟩ := powerRatio_spec 2 (by decide) u
  obtain ⟨gn, gd, hgrid, hgn, hgd, hg⟩ := powerRatio_spec 10 (by decide) e
  have hinside : ∀ k : Nat,
      iv.inside (un * gd) (gn * ud) k = true ↔ iv.Contains u (k * 10 ^ e) := fun k =>
    Interval.inside_iff hu hg hud hgd k
  let k := iv.value * (un * gd) / (gn * ud)
  have hfloor : (k * 10 ^ e : ℚ) ≤ iv.value * 2 ^ u :=
    (mul_le_mul_units_iff hu hg hud hgd iv.value k).2.mp (Nat.div_mul_le_self _ _)
  have hnext : (iv.value * 2 ^ u : ℚ) < (k + 1 : Nat) * 10 ^ e := by
    rw [← not_le, ← (mul_le_mul_units_iff hu hg hud hgd iv.value (k + 1)).2, not_le]
    exact (Nat.div_lt_iff_lt_mul (by positivity)).mp (Nat.lt_succ_self k)
  -- a multiple that is found was tried, and where none is found both are outside
  have hcases :
      (∃ j, onGrid? tie iv u e = some j ∧ iv.inside (un * gd) (gn * ud) j = true) ∨
      (onGrid? tie iv u e = none ∧ iv.inside (un * gd) (gn * ud) k = false ∧
        iv.inside (un * gd) (gn * ud) (k + 1) = false) := by
    simp only [onGrid?, hunit, hgrid]
    split
    · next hk hk' =>
        have hboth : ∀ upper : Bool,
            iv.inside (un * gd) (gn * ud) (if upper then k + 1 else k) = true := by
          intro upper
          cases upper
          · exact hk
          · exact hk'
        exact Or.inl ⟨_, rfl, hboth _⟩
    · next hk _ => exact Or.inl ⟨_, rfl, hk⟩
    · next _ hk' => exact Or.inl ⟨_, rfl, hk'⟩
    · next hk hk' => exact Or.inr ⟨rfl, hk, hk'⟩
  rcases hcases with ⟨j, hj, hin⟩ | ⟨hnone, hk, hk'⟩
  · exact Or.inl ⟨j, hj, (hinside j).mp hin⟩
  · refine Or.inr ⟨hnone, k, hfloor, by exact_mod_cast hnext, ?_, ?_⟩
    · rw [← hinside, hk]
      exact Bool.false_ne_true
    · have h := hinside (k + 1)
      push_cast at h
      rw [← h, hk']
      exact Bool.false_ne_true

end Grid

/-! ## Seventeen digits -/

section Shortest

variable {m : Nat} {e : Int}

/-- The number itself, in the units of its interval. -/
theorem value_around (m : Nat) (e : Int) :
    ((Interval.around m e).value * 2 ^ (e - 2) : ℚ) = m * 2 ^ e := by
  rw [zpow_sub₀ two_ne_zero, Interval.around]
  push_cast
  ring

/-- **Seventeen digits are enough**: of the multiples of a power of ten that is at most `10 ^ (-16)`
    of the number, one lies in the interval. -/
theorem onGrid?_of_fine (tie : Tie) (hfinite : IsFinite m e) {E : Int}
    (hfine : (10 : ℚ) ^ E * 10 ^ 16 ≤ m * 2 ^ e) :
    ∃ k : Nat, onGrid? tie (Interval.around m e) (e - 2) E = some k := by
  rcases onGrid?_cases tie (Interval.around m e) (e - 2) E with
    ⟨k, hk, -⟩ | ⟨-, k, hfloor, hnext, hout, hout'⟩
  · exact ⟨k, hk⟩
  exfalso
  have hpos := two_zpow_pos e
  obtain ⟨g, hg⟩ := exists_units (10 ^ E) e
  have hunit : ∀ x : ℚ, x * (g * 2 ^ e) = x * g * 2 ^ e := fun x => (mul_assoc x g _).symm
  rw [value_around, hg, hunit] at hfloor hnext
  rw [hg, hunit, Interval.contains_around_iff hfinite.pos] at hout hout'
  rw [hg, mul_right_comm] at hfine
  have hfloor := le_of_mul_le_mul_right hfloor hpos
  have hnext := lt_of_mul_lt_mul_right hnext hpos.le
  have hfine := le_of_mul_le_mul_right hfine hpos
  have hm := hfinite.cast_add_one_le
  have hreach := Interval.reachBelow_pos m e
  -- neither multiple is in the interval, so they are as far from each other as its ends
  have hlow : (k : ℚ) * g ≤ m - Interval.reachBelow m e := by
    by_contra hlt
    refine hout ?_
    split
    · constructor <;> linarith
    · constructor <;> linarith
  have hhigh : (m : ℚ) + 1 / 2 ≤ (k + 1) * g := by
    by_contra hlt
    refine hout' ?_
    split
    · constructor <;> linarith
    · constructor <;> linarith
  rcases Interval.reachBelow_cases m e with ⟨hquarter, hpow, -⟩ | ⟨hhalf, -⟩
  · have hpow' : (m : ℚ) = 2 ^ 52 := by
      rw [hpow]
      norm_num [leastFull, Nat.shiftLeft_eq]
    rw [hquarter] at hlow
    linarith
  · rw [hhalf] at hlow
    linarith

/-- The shortest decimal is a multiple of a power of ten that is found, without its zeros. -/
theorem exists_shortest_eq (tie : Tie) (hfinite : IsFinite m e) :
    ∃ (k : Nat) (E : Int), onGrid? tie (Interval.around m e) (e - 2) E = some k ∧
      shortest tie m e = (Decimal.mk k E).trimZeros 17 := by
  obtain ⟨un, ud, hunit, hun, hud, hu⟩ := powerRatio_spec 2 (by decide) (e - 2)
  let top := decimalExponent ((Interval.around m e).value * un) ud
  have htop : (10 : ℚ) ^ (top - 1) ≤ m * 2 ^ e := by
    have hpos : 0 < (Interval.around m e).value := Nat.mul_pos (by decide) hfinite.pos
    have h := (decimalExponent_spec (Nat.mul_pos hpos hun) hud).1
    rw [Nat.cast_mul, mul_div_assoc, hu] at h
    exact h.trans_eq (value_around m e)
  have hfine : (10 : ℚ) ^ (top - (16 : Nat) - 1) * 10 ^ 16 ≤ m * 2 ^ e := by
    refine le_of_eq_of_le ?_ htop
    rw [← zpow_natCast, ← zpow_add₀ (by norm_num)]
    congr 1
    push_cast
    ring
  obtain ⟨k, hk⟩ := onGrid?_of_fine tie hfinite hfine
  -- the grid of seventeen digits is the last that is tried
  obtain ⟨d, hd⟩ : ∃ d, ((List.range 17).findSome? fun (n : Nat) =>
      (onGrid? tie (Interval.around m e) (e - 2) (top - n - 1)).map fun k =>
        Decimal.mk k (top - n - 1)) = some d := by
    rw [← Option.isSome_iff_exists, List.findSome?_isSome_iff]
    exact ⟨16, by simp, by rw [hk]; rfl⟩
  obtain ⟨n, -, hn⟩ := List.exists_of_findSome?_eq_some hd
  obtain ⟨j, hj, rfl⟩ := Option.map_eq_some_iff.mp hn
  refine ⟨j, top - n - 1, hj, ?_⟩
  rw [shortest, if_neg hfinite.pos.ne']
  simp only [hunit]
  exact congrArg (fun found : Option Decimal => (found.getD ⟨0, 0⟩).trimZeros 17) hd

/-- **The shortest decimal** of a number lies in its interval. -/
theorem contains_shortest (tie : Tie) (hfinite : IsFinite m e) :
    (Interval.around m e).Contains (e - 2) (shortest tie m e).value := by
  obtain ⟨k, E, hk, hshortest⟩ := exists_shortest_eq tie hfinite
  rw [hshortest, value_trimZeros]
  rcases onGrid?_cases tie (Interval.around m e) (e - 2) E with ⟨j, hj, hin⟩ | ⟨hnone, -⟩
  · rw [hk] at hj
    cases hj
    exact hin
  · rw [hk] at hnone
    cases hnone

end Shortest

end Decimal

end GeometricAlgebra
