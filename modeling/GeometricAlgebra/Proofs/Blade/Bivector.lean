import GeometricAlgebra.Proofs.Blade.Rank

set_option autoImplicit false

/-! # The vectors of a bivector from its rank

The bivectors with larger vector `j` have the ranks from `C(j, 2)` up to but not including
`C(j + 1, 2)`, its row of ranks (`InRow`). Rows do not overlap, so a rank is above or below the
start of row `e` just as its own row is (`InRow.lt_choose_iff`).

The larger vector is found by correcting an estimate, in one loop that goes down and one that goes
up. By the rule above at most one of them moves, and it stops at the row of the rank
(`inRow_largerVector`). Nothing is assumed of the estimate: it comes from a square root in floats.

The loops run on words of 64 bits. `Correction` is a state of these loops and `next` makes one test,
which gives nothing where an operation leaves its word. From an estimate of 32 bits other than zero
this does not happen, and the loops end after as many corrections as the estimate is off
(`run_correction`). -/

namespace GeometricAlgebra

namespace Blade

/-! ## Rows of ranks -/

/-- The rank is that of a bivector with larger vector `j`. -/
def InRow (index j : Nat) : Prop := j.choose 2 ≤ index ∧ index < (j + 1).choose 2

theorem succ_mul_div_two (j : Nat) : (j + 1) * j / 2 = (j + 1).choose 2 :=
  (Nat.choose_two_right (j + 1)).symm

theorem succ_choose_two (j : Nat) : (j + 1).choose 2 = j + j.choose 2 := by
  rw [Nat.choose_succ_succ' j 1, Nat.choose_one_right]

theorem inRow_iff {index j : Nat} :
    InRow index j ↔ j * (j - 1) / 2 ≤ index ∧ index < j * (j + 1) / 2 := by
  rw [InRow, ← Nat.choose_two_right, Nat.mul_comm j (j + 1), succ_mul_div_two]

variable {index j : Nat}

/-- Rows come one after the other. -/
theorem InRow.lt_choose_iff (h : InRow index j) (e : Nat) : index < e.choose 2 ↔ j < e := by
  constructor
  · intro hlt
    by_contra he
    exact absurd (hlt.trans_le (Nat.choose_le_choose 2 (not_lt.mp he))) (not_lt.mpr h.1)
  · intro he
    exact h.2.trans_le (Nat.choose_le_choose 2 he)

theorem InRow.choose_le_iff (h : InRow index j) (e : Nat) : e.choose 2 ≤ index ↔ e ≤ j := by
  rw [← not_lt, h.lt_choose_iff, not_lt]

theorem InRow.eq {j' : Nat} (h : InRow index j) (h' : InRow index j') : j' = j :=
  le_antisymm ((h.choose_le_iff j').mp h'.1) ((h'.choose_le_iff j).mp h.1)

/-- Row `0` is empty. -/
theorem InRow.pos (h : InRow index j) : 1 ≤ j :=
  (h.choose_le_iff 1).mp (Nat.zero_le index)

theorem InRow.sub_lt (h : InRow index j) : index - j.choose 2 < j := by
  have hlt := h.2
  have hle := h.1
  rw [succ_choose_two] at hlt
  omega

theorem InRow.lt_two_pow_32 (h : InRow index j) (hindex : index < 2 ^ 62) : j < 2 ^ 32 := by
  have hrow : index < (2 ^ 32).choose 2 := by
    rw [Nat.choose_two_right]
    exact hindex.trans (by decide)
  exact (h.lt_choose_iff (2 ^ 32)).mp hrow

/-! ## The larger vector -/

theorem choose_lowerVector_le (index e : Nat) : (lowerVector index e).choose 2 ≤ index := by
  induction e with
  | zero => exact Nat.zero_le index
  | succ e ih =>
      rw [lowerVector, succ_mul_div_two]
      split
      · exact ih
      · next h => exact not_lt.mp h

theorem inRow_raiseVector (h : j.choose 2 ≤ index) : InRow index (raiseVector index j) := by
  fun_induction raiseVector index j with
  | case1 j hup ih => exact ih (by rwa [← succ_mul_div_two])
  | case2 j hstop => exact ⟨h, by rwa [← succ_mul_div_two, ← not_le]⟩

/-- Every estimate is corrected to the row of the rank. -/
theorem inRow_largerVector (index estimate : Nat) : InRow index (largerVector index estimate) :=
  inRow_raiseVector (choose_lowerVector_le index estimate)

theorem vectorsNear_eq (h : InRow index j) (hindex : index < 2 ^ 62) (estimate : Nat) :
    vectorsNear index estimate = (index - j.choose 2, j) := by
  have hj : j < 2 ^ 32 := h.lt_two_pow_32 hindex
  have hi : index - j.choose 2 < 2 ^ 32 := h.sub_lt.trans hj
  simp only [vectorsNear, h.eq (inRow_largerVector index estimate), ← Nat.choose_two_right,
    Nat.one_shiftLeft, Nat.mod_eq_of_lt hi, Nat.mod_eq_of_lt hj]

/-! ## The loops in words -/

/-- A state of the correction: before a test of the loop that lowers the larger vector, before one
    of the loop that raises it, or at the end, with both vectors. -/
inductive Correction where
  | lowering (j : Nat)
  | raising (j : Nat)
  | found (i j : Nat)
  deriving DecidableEq, Repr

namespace Correction

/-- A sum or a product, if it is a word. -/
def word? (x : Nat) : Option Nat := if x < 1 <<< 64 then some x else none

/-- A difference, if it is not below zero. -/
def difference? (x y : Nat) : Option Nat := if y ≤ x then some (x - y) else none

/-- Half of `j * (j - 1)`. -/
def rowStart? (j : Nat) : Option Nat := do
  return (← word? (j * (← difference? j 1))) / 2

/-- One test of a loop, and what is done after it. -/
def next (index : Nat) : Correction → Option Correction
  | lowering j => do
    if (← rowStart? j) > index then return lowering (← difference? j 1) else return raising j
  | raising j => do
    let up ← word? (j + 1)
    if (← word? (up * j)) / 2 ≤ index then return raising up
    else return found (← difference? index (← rowStart? j)) j
  | found i j => return found i j

/-- What `n` tests lead to. -/
def run (index : Nat) : (n : Nat) → Correction → Option Correction
  | 0, c => some c
  | n + 1, c => (next index c).bind (run index n)

theorem word?_eq {x : Nat} (h : x < 2 ^ 64) : word? x = some x :=
  if_pos (by rwa [Nat.one_shiftLeft])

theorem difference?_eq {x y : Nat} (h : y ≤ x) : difference? x y = some (x - y) := if_pos h

theorem mul_lt_two_pow_64 {x y : Nat} (hx : x ≤ 2 ^ 32) (hy : y < 2 ^ 32) : x * y < 2 ^ 64 :=
  calc x * y ≤ 2 ^ 32 * y := Nat.mul_le_mul_right y hx
    _ < 2 ^ 32 * 2 ^ 32 := Nat.mul_lt_mul_of_pos_left hy (by decide)
    _ = 2 ^ 64 := by decide

theorem rowStart?_eq (hpos : 1 ≤ j) (hj : j ≤ 2 ^ 32) : rowStart? j = some (j.choose 2) := by
  have hword : j * (j - 1) < 2 ^ 64 := mul_lt_two_pow_64 hj (by omega)
  rw [rowStart?, difference?_eq hpos, Nat.choose_two_right]
  simp only [Option.bind_eq_bind, Option.bind_some, word?_eq hword]
  rfl

/-! ## One test -/

theorem next_lowering_of_lt {e : Nat} (h : InRow index j) (hlt : j < e) (he : e ≤ 2 ^ 32) :
    next index (lowering e) = some (lowering (e - 1)) := by
  have hpos : 1 ≤ e := by omega
  simp only [next, rowStart?_eq hpos he, difference?_eq hpos, Option.bind_eq_bind,
    Option.bind_some]
  exact if_pos ((h.lt_choose_iff e).mpr hlt)

theorem next_lowering_of_le {e : Nat} (h : InRow index j) (hpos : 1 ≤ e) (hle : e ≤ j)
    (he : e ≤ 2 ^ 32) : next index (lowering e) = some (raising e) := by
  simp only [next, rowStart?_eq hpos he, Option.bind_eq_bind, Option.bind_some]
  exact if_neg (not_lt.mpr ((h.choose_le_iff e).mpr hle))

theorem next_raising_of_lt {e : Nat} (h : InRow index j) (hlt : e < j) (hj : j < 2 ^ 32) :
    next index (raising e) = some (raising (e + 1)) := by
  have hword : (e + 1) * e < 2 ^ 64 := mul_lt_two_pow_64 (by omega) (by omega)
  have hup : e + 1 < 2 ^ 64 := by omega
  simp only [next, word?_eq hup, word?_eq hword, succ_mul_div_two, Option.bind_eq_bind,
    Option.bind_some]
  exact if_pos ((h.choose_le_iff (e + 1)).mpr hlt)

theorem next_raising_self (h : InRow index j) (hj : j < 2 ^ 32) :
    next index (raising j) = some (found (index - j.choose 2) j) := by
  have hword : (j + 1) * j < 2 ^ 64 := mul_lt_two_pow_64 hj hj
  have hup : j + 1 < 2 ^ 64 := by omega
  simp only [next, word?_eq hup, word?_eq hword, succ_mul_div_two, rowStart?_eq h.pos hj.le,
    difference?_eq h.1, Option.bind_eq_bind, Option.bind_some]
  exact if_neg (not_le.mpr h.2)

/-! ## A run of both loops -/

theorem run_succ {n : Nat} {c d : Correction} (h : next index c = some d) :
    run index (n + 1) c = run index n d := by
  rw [run, h, Option.bind_some]

theorem run_add {m n : Nat} {c d : Correction} (h : run index m c = some d) :
    run index (m + n) c = run index n d := by
  induction m generalizing c with
  | zero => rw [Nat.zero_add, Option.some.inj h]
  | succ m ih =>
      obtain ⟨b, hb, hrun⟩ := Option.bind_eq_some_iff.mp h
      rw [Nat.succ_add, run_succ hb, ih hrun]

/-- The first loop goes down to the row of the rank. -/
theorem run_lowering {e : Nat} (h : InRow index j) (hle : j ≤ e) (he : e ≤ 2 ^ 32) :
    run index (e - j) (lowering e) = some (lowering j) := by
  induction e, hle using Nat.le_induction with
  | base => rw [Nat.sub_self, run]
  | succ e hje ih =>
      rw [Nat.succ_sub hje, run_succ (next_lowering_of_lt h (Nat.lt_succ_of_le hje) he)]
      exact ih (Nat.le_of_succ_le he)

/-- The second loop goes up to the row of the rank. -/
theorem run_raising {e : Nat} (h : InRow index j) (hle : e ≤ j) (hj : j < 2 ^ 32) :
    run index (j - e) (raising e) = some (raising j) := by
  induction hle using Nat.decreasingInduction with
  | self => rw [Nat.sub_self, run]
  | of_succ e hej ih =>
      rw [← Nat.succ_sub_succ, Nat.succ_sub hej, run_succ (next_raising_of_lt h hej hj)]
      exact ih

/-- **An estimate is corrected as often as it is off**, by one loop or the other, and one more test
    ends each of them. -/
theorem run_correction {e : Nat} (h : InRow index j) (hj : j < 2 ^ 32) (hpos : 1 ≤ e)
    (he : e ≤ 2 ^ 32) :
    run index ((e - j) + (j - e) + 2) (lowering e) = some (found (index - j.choose 2) j) := by
  rcases Nat.le_total j e with hle | hle
  · have hdown := run_lowering h hle he
    have hturn := next_lowering_of_le h h.pos le_rfl hj.le
    rw [Nat.sub_eq_zero_of_le hle, Nat.add_zero, run_add hdown, run_succ hturn,
      run_succ (next_raising_self h hj), run]
  · have hup := run_raising h hle hj
    have hturn := next_lowering_of_le h hpos hle he
    rw [Nat.sub_eq_zero_of_le hle, Nat.zero_add, run_succ hturn, run_add hup,
      run_succ (next_raising_self h hj), run]

end Correction

/-! ## Ranks of bivectors -/

theorem bivectorRank_comm (i j : Nat) : bivectorRank i j = bivectorRank j i := by
  rw [bivectorRank, bivectorRank, max_comm, min_comm]

theorem bivectorRank_of_lt {i : Nat} (h : i < j) : bivectorRank i j = j.choose 2 + i := by
  rw [bivectorRank, max_eq_right h.le, min_eq_left h.le, Nat.choose_two_right]

/-- The closed form is the rank of the bivector. -/
theorem bivectorRank_eq_rank {i : Nat} (h : i < j) (hj : j < maxDimension) :
    bivectorRank i j = rank (2 ^ i + 2 ^ j) := by
  have hlt : ofVector i < 2 ^ j := ofVector_lt_iff.mpr h
  rw [bivectorRank_of_lt h, ← Nat.one_shiftLeft i, ← ofVector, Nat.add_comm (ofVector i),
    rank_add_top hlt, rank_ofVector (h.trans hj).le, grade_ofVector, binomial_eq_choose _ hj.le,
    Nat.add_comm]

/-- **The vectors of a bivector are found from any estimate.** For a rank below `2 ^ 62` and an
    estimate from `1` to `2 ^ 32 - 2`, the loops end without leaving their words and with the
    vectors `i` and `j` of the answer. The larger one, `j`, is the only one with the rank in its
    row, the smaller one is below it, neither is cut to 32 bits, and their bivector, in either
    order, has this rank. That is also the rank of the blade of the two vectors. -/
theorem vectorsNear_exact :
    (∀ index < 2 ^ 62, ∀ estimate, 1 ≤ estimate → estimate ≤ 2 ^ 32 - 2 →
      ∃ i j, vectorsNear index estimate = (i, j) ∧
        Correction.run index ((estimate - j) + (j - estimate) + 2) (.lowering estimate)
          = some (.found i j) ∧
        (∀ j', j' * (j' - 1) / 2 ≤ index ∧ index < j' * (j' + 1) / 2 ↔ j' = j) ∧
        i < j ∧ j < 2 ^ 32 ∧ bivectorRank i j = index ∧ bivectorRank j i = index) ∧
    ∀ i j, i < j → j < maxDimension → bivectorRank i j = rank (2 ^ i + 2 ^ j) := by
  refine ⟨fun index hindex estimate hpos hestimate => ?_, fun i j => bivectorRank_eq_rank⟩
  have hrow : InRow index (largerVector index estimate) := inRow_largerVector index estimate
  generalize largerVector index estimate = j at hrow
  have hj : j < 2 ^ 32 := hrow.lt_two_pow_32 hindex
  have hrank : bivectorRank (index - j.choose 2) j = index := by
    rw [bivectorRank_of_lt hrow.sub_lt, Nat.add_sub_cancel' hrow.1]
  refine ⟨index - j.choose 2, j, vectorsNear_eq hrow hindex estimate,
    Correction.run_correction hrow hj hpos (hestimate.trans (Nat.sub_le _ _)), fun j' => ?_,
    hrow.sub_lt, hj, hrank, ?_⟩
  · rw [← inRow_iff]
    exact ⟨hrow.eq, fun h => h ▸ hrow⟩
  · rw [bivectorRank_comm, hrank]

/-- The bivector of rank `100` is that of vectors `9` and `14`, also from the largest estimate. -/
theorem vectorsNear_exact_far :
    (100 < 2 ^ 62 ∧ vectorsNear 100 (2 ^ 32 - 2) = (9, 14) ∧
      Correction.run 100 4294967282 (.lowering 4294967294) = some (.found 9 14)) ∧
    bivectorRank 9 14 = rank (2 ^ 9 + 2 ^ 14) := by
  obtain ⟨hnear, hrank⟩ := vectorsNear_exact
  have hindex : 100 < 2 ^ 62 := by decide
  obtain ⟨i, j, hvectors, hrun, hrow, hij, -, hback, -⟩ :=
    hnear 100 hindex (2 ^ 32 - 2) (by decide) le_rfl
  have hj : 14 = j := (hrow 14).mp (by decide)
  subst hj
  have hi : i = 9 := by
    rw [bivectorRank_of_lt hij] at hback
    exact Nat.add_left_cancel (hback.trans (by decide : 100 = Nat.choose 14 2 + 9))
  subst hi
  exact ⟨⟨hindex, hvectors, hrun⟩, hrank 9 14 (by decide) (by decide)⟩

end Blade

end GeometricAlgebra
