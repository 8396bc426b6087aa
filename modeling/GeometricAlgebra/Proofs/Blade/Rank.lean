import GeometricAlgebra.Proofs.Blade.Binomial
import GeometricAlgebra.Proofs.Blade.Vectors

set_option autoImplicit false

/-! # Ranks and blades correspond

In an algebra of at most `maxDimension` vectors no intermediate result of `binomial` leaves its
word, so it is `Nat.choose` (`binomial_eq_choose`). With that, `rank` and `unrank` are inverse to
each other: `rank_unrank` on the ranks below `C(n, k)`, `unrank_rank` on the blades of an algebra.
Both go by the largest vector `c`: the blades of grade `k + 1` with this largest vector have the
ranks from `C(c, k + 1)` up to but not including `C(c + 1, k + 1)`, and what remains is the rank of
the blade below. -/

namespace GeometricAlgebra

namespace Blade

/-! ## Ranks -/

theorem rankOf_append_singleton (l : List Nat) (c : Nat) :
    ∀ j, rankOf j (l ++ [c]) = rankOf j l + binomial c (j + l.length) := by
  induction l with
  | nil => intro j; simp [rankOf]
  | cons d l ih =>
      intro j
      rw [List.cons_append, rankOf, rankOf, ih, List.length_cons, Nat.add_assoc (binomial d j),
        Nat.add_right_comm j 1, Nat.add_assoc j]

theorem rank_add_top {c u : Nat} (hu : u < 2 ^ c) :
    rank (2 ^ c + u) = rank u + binomial c (grade u + 1) := by
  rw [rank, vectors_add_top hu, rankOf_append_singleton, length_vectors, Nat.add_comm 1, ← rank]

/-- Basis vectors are ranked by their number. -/
theorem rank_ofVector {i : Nat} (hi : i ≤ maxDimension) : rank (ofVector i) = i := by
  have htop := rank_add_top (Nat.two_pow_pos i)
  rw [Nat.add_zero, ← Nat.one_shiftLeft, ← ofVector, binomial_eq_choose _ hi] at htop
  rw [htop]
  simp [rank, vectors, vectorsFrom, rankOf, grade]

/-- The rank of a blade is below the number of blades of its grade. -/
theorem rank_lt {n : Nat} (hn : n ≤ maxDimension) (b : Nat) :
    b < 2 ^ n → rank b < n.choose (grade b) := by
  induction b using topInduction generalizing n with
  | zero =>
      intro _
      simp [rank, vectors, vectorsFrom, rankOf, grade]
  | top c u hu ih =>
      intro hb
      have hc : c < n := lt_of_two_pow_add_lt hb
      have hcn : c ≤ maxDimension := hc.le.trans hn
      rw [rank_add_top hu, grade_add_top hu, binomial_eq_choose _ hcn]
      calc rank u + c.choose (grade u + 1) < c.choose (grade u) + c.choose (grade u + 1) :=
            Nat.add_lt_add_right (ih hcn hu) _
        _ = (c + 1).choose (grade u + 1) := (Nat.choose_succ_succ' c (grade u)).symm
        _ ≤ n.choose (grade u + 1) := Nat.choose_le_choose _ hc

/-! ## The largest vector of a rank -/

/-- The greedy search ends at a vector whose range of ranks holds `r`. -/
theorem topVector_spec {j r c : Nat} (hr : r < maxDimension.choose j) (hc : c < maxDimension)
    (hle : c.choose j ≤ r) :
    topVector j r c < maxDimension ∧ (topVector j r c).choose j ≤ r ∧
      r < (topVector j r c + 1).choose j := by
  fun_induction topVector j r c with
  | case1 c h ih => exact ih h.1 (by rw [← binomial_eq_choose j h.1.le]; exact h.2)
  | case2 c h =>
      -- the search stops where the next vector does not fit, or at the last vector of all
      refine ⟨hc, hle, ?_⟩
      by_contra hge
      rcases Nat.lt_or_ge (c + 1) maxDimension with hlt | hmax
      · exact h ⟨hlt, by rw [binomial_eq_choose j hlt.le]; exact not_lt.mp hge⟩
      · have : c + 1 = maxDimension := by omega
        rw [this] at hge
        exact hge hr

/-- A rank below the number of blades of grade `k + 1` has its largest vector in the algebra, and
    leaves a rank of grade `k` below it. -/
theorem topVector_of_lt {k r n : Nat} (hn : n ≤ maxDimension) (hr : r < n.choose (k + 1)) :
    topVector (k + 1) r k < n ∧ (topVector (k + 1) r k).choose (k + 1) ≤ r ∧
      r - (topVector (k + 1) r k).choose (k + 1) < (topVector (k + 1) r k).choose k := by
  -- there are blades of grade `k + 1` only where there are as many vectors
  have hkn : k + 1 ≤ n := by
    by_contra h
    rw [Nat.choose_eq_zero_of_lt (by omega)] at hr
    omega
  obtain ⟨-, hlo, hhi⟩ := topVector_spec (hr.trans_le (Nat.choose_le_choose (k + 1) hn))
    (c := k) (by omega) (by rw [Nat.choose_succ_self]; omega)
  refine ⟨?_, hlo, ?_⟩
  · by_contra h
    exact absurd (Nat.choose_le_choose (k + 1) (not_lt.mp h)) (by omega)
  · rw [Nat.choose_succ_succ'] at hhi
    omega

/-- The largest vector is determined by its range of ranks. -/
theorem topVector_eq {k r c : Nat} (hc : c < maxDimension) (hlo : c.choose (k + 1) ≤ r)
    (hhi : r < (c + 1).choose (k + 1)) : topVector (k + 1) r k = c := by
  have hr : r < maxDimension.choose (k + 1) := hhi.trans_le (Nat.choose_le_choose _ hc)
  obtain ⟨-, hlo', hrest⟩ := topVector_of_lt le_rfl hr
  have hhi' : r < (topVector (k + 1) r k + 1).choose (k + 1) := by
    rw [Nat.choose_succ_succ']
    omega
  rcases Nat.lt_trichotomy (topVector (k + 1) r k) c with h | h | h
  · have : (topVector (k + 1) r k + 1).choose (k + 1) ≤ c.choose (k + 1) :=
      Nat.choose_le_choose (k + 1) h
    omega
  · exact h
  · have : (c + 1).choose (k + 1) ≤ (topVector (k + 1) r k).choose (k + 1) :=
      Nat.choose_le_choose (k + 1) h
    omega

/-! ## Blades from ranks -/

theorem unrank_lt {k : Nat} :
    ∀ {r n : Nat}, n ≤ maxDimension → r < n.choose k → unrank k r < 2 ^ n := by
  induction k with
  | zero => intro r n _ _; exact Nat.two_pow_pos n
  | succ k ih =>
      intro r n hn hr
      obtain ⟨hc, -, hrest⟩ := topVector_of_lt hn hr
      have hcn := hc.le.trans hn
      simp only [unrank]
      rw [binomial_eq_choose _ hcn, ofVector_or (ih hcn hrest)]
      have hu := ih hcn hrest
      calc 2 ^ topVector (k + 1) r k + _ < 2 ^ topVector (k + 1) r k + 2 ^ topVector (k + 1) r k :=
            Nat.add_lt_add_left hu _
        _ = 2 ^ (topVector (k + 1) r k + 1) := by rw [Nat.pow_succ]; omega
        _ ≤ 2 ^ n := Nat.pow_le_pow_right (by decide) hc

/-- The blade of a rank is its largest vector on top of the blade of what remains. -/
theorem unrank_succ {k r n : Nat} (hn : n ≤ maxDimension) (hr : r < n.choose (k + 1)) :
    unrank (k + 1) r = 2 ^ topVector (k + 1) r k
      + unrank k (r - (topVector (k + 1) r k).choose (k + 1)) := by
  obtain ⟨hc, -, hrest⟩ := topVector_of_lt hn hr
  have hcn := hc.le.trans hn
  simp only [unrank]
  rw [binomial_eq_choose _ hcn, ofVector_or (unrank_lt hcn hrest)]

theorem grade_unrank {k : Nat} :
    ∀ {r n : Nat}, n ≤ maxDimension → r < n.choose k → grade (unrank k r) = k := by
  induction k with
  | zero => intro r n _ _; simp [unrank, grade]
  | succ k ih =>
      intro r n hn hr
      obtain ⟨hc, -, hrest⟩ := topVector_of_lt hn hr
      have hcn := hc.le.trans hn
      rw [unrank_succ hn hr, grade_add_top (unrank_lt hcn hrest), ih hcn hrest]

theorem rank_unrank {k : Nat} :
    ∀ {r n : Nat}, n ≤ maxDimension → r < n.choose k → rank (unrank k r) = r := by
  induction k with
  | zero =>
      intro r n _ hr
      rw [Nat.choose_zero_right] at hr
      simp [unrank, rank, vectors, vectorsFrom, rankOf, Nat.lt_one_iff.mp hr]
  | succ k ih =>
      intro r n hn hr
      obtain ⟨hc, hlo, hrest⟩ := topVector_of_lt hn hr
      have hcn := hc.le.trans hn
      rw [unrank_succ hn hr, rank_add_top (unrank_lt hcn hrest), ih hcn hrest,
        grade_unrank hcn hrest, binomial_eq_choose _ hcn, Nat.sub_add_cancel hlo]

theorem unrank_rank (b : Nat) : b < 2 ^ maxDimension → unrank (grade b) (rank b) = b := by
  induction b using topInduction with
  | zero =>
      intro _
      simp [grade, unrank]
  | top c u hu ih =>
      intro hb
      have hc : c < maxDimension := lt_of_two_pow_add_lt hb
      have hlt : rank u < c.choose (grade u) := rank_lt hc.le u hu
      have hu' : u < 2 ^ maxDimension := by omega
      have hr : rank (2 ^ c + u) = rank u + c.choose (grade u + 1) := by
        rw [rank_add_top hu, binomial_eq_choose _ hc.le]
      have hhi : rank u + c.choose (grade u + 1) < (c + 1).choose (grade u + 1) := by
        rw [Nat.choose_succ_succ']
        omega
      have htop : topVector (grade u + 1) (rank u + c.choose (grade u + 1)) (grade u) = c :=
        topVector_eq hc (Nat.le_add_left _ _) hhi
      rw [grade_add_top hu, hr, unrank_succ (n := c + 1) hc hhi, htop, Nat.add_sub_cancel, ih hu']

end Blade

end GeometricAlgebra
