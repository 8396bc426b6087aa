import GeometricAlgebra.Proofs.Multivector.View

set_option autoImplicit false

/-! # Ranks order the blades of a grade

Within a grade the larger blade has the larger rank (`rank_lt_rank`): of two blades with the same
largest vector the rest decides, and a blade with a larger one has a rank that no blade below this
vector reaches. As ranks and blades correspond, the rank of a blade counts the smaller blades of its
grade (`rank_eq_card`), and unranking `0, 1, 2, …` lists a grade in ascending order
(`pairwise_ofGrade`, `mem_ofGrade`).

Both directions run on words of 64 bits. `rankInWords` and `unrankInWords` are the same loops with a
check before every sum and every difference, and the checks always pass. -/

namespace GeometricAlgebra

namespace Blade

/-! ## The order of ranks -/

/-- Of two blades of a grade the larger one has the larger rank. -/
theorem rank_lt_rank {b c : Nat} (hc : c < 2 ^ maxDimension) (hg : grade b = grade c) (h : b < c) :
    rank b < rank c := by
  induction c using topInduction generalizing b with
  | zero => exact absurd h (Nat.not_lt_zero b)
  | top t u hu ih =>
      have ht : t < maxDimension := lt_of_two_pow_add_lt hc
      rw [grade_add_top hu] at hg
      rw [rank_add_top hu, binomial_eq_choose _ ht.le]
      rcases Nat.lt_or_ge b (2 ^ t) with hb | hb
      · -- all blades below vector `t` have smaller ranks than those that have it on top
        have hlt := rank_lt ht.le b hb
        rw [hg] at hlt
        exact hlt.trans_le (Nat.le_add_left _ _)
      · obtain ⟨v, rfl⟩ := Nat.exists_eq_add_of_le hb
        have hvu : v < u := Nat.lt_of_add_lt_add_left h
        have hv : v < 2 ^ t := hvu.trans hu
        rw [grade_add_top hv, Nat.add_right_cancel_iff] at hg
        rw [rank_add_top hv, binomial_eq_choose _ ht.le, hg]
        exact Nat.add_lt_add_right (ih ((Nat.le_add_left u _).trans_lt hc) hg hvu) _

theorem rank_lt_rank_iff {b c : Nat} (hb : b < 2 ^ maxDimension) (hc : c < 2 ^ maxDimension)
    (hg : grade b = grade c) : rank b < rank c ↔ b < c := by
  refine ⟨fun h => ?_, rank_lt_rank hc hg⟩
  rcases Nat.lt_trichotomy b c with hlt | rfl | hgt
  · exact hlt
  · exact absurd h (lt_irrefl _)
  · exact absurd (rank_lt_rank hb hg.symm hgt) h.not_gt

theorem unrank_lt_two_pow {n k r : Nat} (hn : n ≤ maxDimension) (hr : r < n.choose k) :
    unrank k r < 2 ^ maxDimension :=
  (unrank_lt hn hr).trans_le (Nat.pow_le_pow_right (by decide) hn)

theorem unrank_lt_unrank {n k r s : Nat} (hn : n ≤ maxDimension) (hs : s < n.choose k)
    (h : r < s) : unrank k r < unrank k s := by
  have hr := h.trans hs
  refine (rank_lt_rank_iff (unrank_lt_two_pow hn hr) (unrank_lt_two_pow hn hs) ?_).mp ?_
  · rw [grade_unrank hn hr, grade_unrank hn hs]
  · rwa [rank_unrank hn hr, rank_unrank hn hs]

/-- **The rank of a blade is the number of smaller blades of its grade.** -/
theorem rank_eq_card {b : Nat} (hb : b < 2 ^ maxDimension) :
    rank b = ((Finset.range b).filter fun c => grade c = grade b).card := by
  have hchoose : ∀ r < rank b, r < maxDimension.choose (grade b) := fun r hr =>
    hr.trans (rank_lt le_rfl b hb)
  rw [← Finset.card_range (rank b)]
  refine Finset.card_nbij' (unrank (grade b)) rank ?_ ?_ ?_ ?_
  · intro r hr
    have hr := Finset.mem_range.mp hr
    have hgrade := grade_unrank le_rfl (hchoose r hr)
    refine Finset.mem_filter.mpr ⟨Finset.mem_range.mpr ?_, hgrade⟩
    refine (rank_lt_rank_iff (unrank_lt le_rfl (hchoose r hr)) hb hgrade).mp ?_
    rwa [rank_unrank le_rfl (hchoose r hr)]
  · intro c hc
    obtain ⟨hcb, hgrade⟩ := Finset.mem_filter.mp hc
    exact Finset.mem_range.mpr (rank_lt_rank hb hgrade (Finset.mem_range.mp hcb))
  · intro r hr
    exact rank_unrank le_rfl (hchoose r (Finset.mem_range.mp hr))
  · intro c hc
    obtain ⟨hcb, hgrade⟩ := Finset.mem_filter.mp hc
    rw [← hgrade]
    exact unrank_rank c ((Finset.mem_range.mp hcb).trans hb)

/-! ## The blades of a grade -/

theorem pairwise_ofGrade {n : Nat} (k : Nat) (hn : n ≤ maxDimension) :
    (ofGrade n k).Pairwise (· < ·) := by
  rw [ofGrade, List.pairwise_map]
  refine List.Pairwise.imp_of_mem ?_ List.pairwise_lt_range
  intro r s _ hs hlt
  rw [binomial_eq_choose k hn, List.mem_range] at hs
  exact unrank_lt_unrank hn hs hlt

theorem mem_ofGrade {n k b : Nat} (hn : n ≤ maxDimension) :
    b ∈ ofGrade n k ↔ b < 2 ^ n ∧ grade b = k := by
  rw [ofGrade, List.mem_map, binomial_eq_choose k hn]
  constructor
  · rintro ⟨r, hr, rfl⟩
    have hr := List.mem_range.mp hr
    exact ⟨unrank_lt hn hr, grade_unrank hn hr⟩
  · rintro ⟨hb, rfl⟩
    refine ⟨rank b, List.mem_range.mpr (rank_lt hn b hb), unrank_rank b ?_⟩
    exact hb.trans_le (Nat.pow_le_pow_right (by decide) hn)

/-- A blade is unranked within an algebra iff the algebra has the grade and the rank. -/
theorem unrankIn_eq_ok_iff {n k r b : Nat} :
    unrankIn n k r = .ok b ↔ n ≤ maxDimension ∧ k ≤ n ∧ r < n.choose k ∧ b = unrank k r := by
  rw [unrankIn, bind_eq_ok_iff]
  constructor
  · rintro ⟨⟨⟩, hn, h⟩
    have hn := Multivector.validateDimension_eq_ok_iff.mp hn
    rw [binomial_eq_choose k hn] at h
    split_ifs at h with hk hr
    exact ⟨hn, not_lt.mp hk, not_le.mp hr, (Except.ok.inj h).symm⟩
  · rintro ⟨hn, hk, hr, rfl⟩
    refine ⟨(), Multivector.validateDimension_eq_ok_iff.mpr hn, ?_⟩
    rw [binomial_eq_choose k hn, if_neg (not_lt.mpr hk), if_neg (not_le.mpr hr)]

/-! ## Ranks in words -/

/-- `rankOf` as a loop that adds up from `sum`, if no sum leaves 64 bits. -/
def rankInWords : (j sum : Nat) → List Nat → Option Nat
  | _, sum, [] => some sum
  | j, sum, c :: cs =>
    if sum + binomial c j < 1 <<< 64 then rankInWords (j + 1) (sum + binomial c j) cs else none

/-- `unrank`, if nothing larger is subtracted from a rank. -/
def unrankInWords : (k r : Nat) → Option Nat
  | 0, _ => some 0
  | j + 1, r =>
    let c := topVector (j + 1) r j
    if binomial c (j + 1) ≤ r then
      (unrankInWords j (r - binomial c (j + 1))).map (ofVector c ||| ·)
    else none

theorem rankInWords_eq_some {l : List Nat} {j sum : Nat} (h : sum + rankOf j l < 2 ^ 64) :
    rankInWords j sum l = some (sum + rankOf j l) := by
  induction l generalizing j sum with
  | nil => rfl
  | cons c l ih =>
      rw [rankOf, ← Nat.add_assoc] at h
      rw [rankInWords, if_pos, ih h, rankOf, Nat.add_assoc]
      rw [Nat.one_shiftLeft]
      exact (Nat.le_add_right _ _).trans_lt h

theorem rankInWords_vectors {b : Nat} (hb : b < 2 ^ maxDimension) :
    rankInWords 1 0 (vectors b) = some (rank b) := by
  have hlt : rank b < 2 ^ 64 := (rank_lt le_rfl b hb).trans (choose_lt_two_pow_64 _ le_rfl)
  rw [rank, ← Nat.zero_add (rankOf 1 _)] at hlt
  rw [rankInWords_eq_some hlt, Nat.zero_add, rank]

theorem binomial_topVector_le {j r c : Nat} (h : binomial c j ≤ r) :
    binomial (topVector j r c) j ≤ r := by
  fun_induction topVector j r c with
  | case1 c hnext ih => exact ih hnext.2
  | case2 c hstop => exact h

theorem unrankInWords_eq_some (k r : Nat) : unrankInWords k r = some (unrank k r) := by
  induction k generalizing r with
  | zero => rfl
  | succ j ih =>
      -- the search starts at a vector that takes no rank away
      have hstart : binomial j (j + 1) ≤ r := by simp [binomial]
      simp only [unrankInWords, unrank]
      rw [if_pos (binomial_topVector_le hstart), ih, Option.map_some]

/-! ## Blades and ranks -/

/-- **Grade and rank code the blades in order.** The rank of a blade counts the smaller blades of
    its grade, and leads back to the blade; ranks compare as blades of one grade do. The ranks below
    `C(n, k)` are those of the blades of grade `k` in `n` dimensions, which they list in ascending
    order, and are the ones that are unranked within an algebra. No sum of a rank leaves its word,
    and no difference goes below zero. -/
theorem rank_unrank_ordered :
    (∀ b < 2 ^ maxDimension,
      rank b = ((Finset.range b).filter fun c => grade c = grade b).card ∧
      unrank (grade b) (rank b) = b ∧ rankInWords 1 0 (vectors b) = some (rank b)) ∧
    (∀ b < 2 ^ maxDimension, ∀ c < 2 ^ maxDimension, grade b = grade c →
      (rank b < rank c ↔ b < c)) ∧
    (∀ n ≤ maxDimension, ∀ k r, r < n.choose k →
      unrank k r < 2 ^ n ∧ grade (unrank k r) = k ∧ rank (unrank k r) = r) ∧
    (∀ n ≤ maxDimension, ∀ k, (ofGrade n k).Pairwise (· < ·) ∧
      ∀ b, b ∈ ofGrade n k ↔ b < 2 ^ n ∧ grade b = k) ∧
    (∀ n k r b, unrankIn n k r = .ok b ↔
      n ≤ maxDimension ∧ k ≤ n ∧ r < n.choose k ∧ b = unrank k r) ∧
    ∀ k r, unrankInWords k r = some (unrank k r) :=
  ⟨fun b hb => ⟨rank_eq_card hb, unrank_rank b hb, rankInWords_vectors hb⟩,
    fun _ hb _ hc => rank_lt_rank_iff hb hc,
    fun _ hn _ _ hr => ⟨unrank_lt hn hr, grade_unrank hn hr, rank_unrank hn hr⟩,
    fun _ hn k => ⟨pairwise_ofGrade k hn, fun _ => mem_ofGrade hn⟩,
    fun _ _ _ _ => unrankIn_eq_ok_iff, unrankInWords_eq_some⟩

/-- The blade of vectors `1`, `2` and `4` is the seventh of its grade, in five dimensions as in any
    larger number. -/
theorem rank_unrank_ordered_sample :
    (22 < 2 ^ maxDimension ∧ rank 22 = 6 ∧
      ((Finset.range 22).filter fun c => grade c = grade 22).card = 6 ∧
      unrank 3 6 = 22 ∧ rankInWords 1 0 [1, 2, 4] = some 6) ∧
    (grade 21 = grade 22 ∧ rank 21 < rank 22) ∧
    (6 < Nat.choose 5 3 ∧ unrank 3 6 < 2 ^ 5) ∧
    ((ofGrade 5 3).Pairwise (· < ·) ∧ 22 ∈ ofGrade 5 3) ∧
    unrankIn 5 3 6 = .ok 22 := by
  obtain ⟨hrank, hless, hunrank, hgrades, hin, -⟩ := rank_unrank_ordered
  have h21 : 21 < 2 ^ maxDimension := by decide
  have h22 : 22 < 2 ^ maxDimension := by decide
  have h5 : 5 ≤ maxDimension := by decide
  have hchoose : 6 < Nat.choose 5 3 := by decide
  have hgrade : grade 22 = 3 := by cbv
  have hgrade' : grade 21 = grade 22 := by cbv
  have hvectors : vectors 22 = [1, 2, 4] := by cbv
  have hsix : rank 22 = 6 := by cbv
  obtain ⟨hcard, hback, hwords⟩ := hrank 22 h22
  rw [hsix] at hcard hback hwords
  rw [hgrade] at hback
  rw [hvectors] at hwords
  refine ⟨⟨h22, hsix, hcard.symm, hback, hwords⟩, ⟨hgrade', ?_⟩, ⟨hchoose, ?_⟩, ?_, ?_⟩
  · exact (hless 21 h21 22 h22 hgrade').mpr (by decide)
  · exact (hunrank 5 h5 3 6 hchoose).1
  · exact ⟨(hgrades 5 h5 3).1, ((hgrades 5 h5 3).2 22).mpr ⟨by decide, hgrade⟩⟩
  · exact (hin 5 3 6 22).mpr ⟨h5, by decide, hchoose, hback.symm⟩

end Blade

end GeometricAlgebra
