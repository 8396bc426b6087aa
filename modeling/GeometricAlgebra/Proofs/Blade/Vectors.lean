import Mathlib
import GeometricAlgebra.Blade.Basic

set_option autoImplicit false

/-! # Blades as sets of basis vectors

A blade is a number whose bits are its basis vectors. Here it becomes the finite set of these
vectors, `vectorSet`: the bitwise operations are operations on sets, the grade is the number of
elements, and the ascending list `vectors` lists the set. Signs of products are products over such
sets, so everything about them starts from these lemmas.

A blade is also its largest vector with the blade of the others below it, which is how ranks and the
tree of blades see it; `topInduction` is the induction that goes with this. -/

namespace GeometricAlgebra

namespace Blade

/-! ## The ascending list of vectors -/

theorem mem_vectorsFrom (i b j : Nat) :
    j ∈ vectorsFrom i b ↔ i ≤ j ∧ b.testBit (j - i) = true := by
  fun_induction vectorsFrom i b with
  | case1 i => simp
  | case2 i b hb hodd ih =>
      -- bit `0` of `b` stands for vector `i`, the other bits for the vectors after it
      rw [List.mem_cons, ih]
      rcases Nat.lt_trichotomy i j with h | h | h
      · have hj : j - i = (j - (i + 1)) + 1 := by omega
        rw [hj, Nat.testBit_succ]
        constructor
        · rintro (h' | ⟨_, h'⟩)
          · omega
          · exact ⟨by omega, h'⟩
        · exact fun h' => Or.inr ⟨by omega, h'.2⟩
      · subst h
        simp [Nat.testBit_zero, hodd]
      · constructor
        · rintro (h' | h') <;> omega
        · rintro ⟨h', -⟩; omega
  | case3 i b hb heven ih =>
      rw [ih]
      rcases Nat.lt_trichotomy i j with h | h | h
      · have hj : j - i = (j - (i + 1)) + 1 := by omega
        rw [hj, Nat.testBit_succ]
        exact and_congr_left fun _ => by omega
      · subst h
        simp [Nat.testBit_zero, heven]
      · constructor <;> rintro ⟨h', -⟩ <;> omega

theorem mem_vectors {b j : Nat} : j ∈ vectors b ↔ b.testBit j = true := by
  simp [vectors, mem_vectorsFrom]

theorem pairwise_vectorsFrom (i b : Nat) : (vectorsFrom i b).Pairwise (· < ·) := by
  fun_induction vectorsFrom i b with
  | case1 => exact List.Pairwise.nil
  | case2 i b hb hodd ih =>
      refine List.pairwise_cons.mpr ⟨fun j hj => ?_, ih⟩
      exact ((mem_vectorsFrom _ _ _).mp hj).1
  | case3 i b hb heven ih => exact ih

theorem pairwise_vectors (b : Nat) : (vectors b).Pairwise (· < ·) := pairwise_vectorsFrom 0 b

theorem nodup_vectors (b : Nat) : (vectors b).Nodup :=
  (pairwise_vectors b).imp fun h => Nat.ne_of_lt h

theorem length_vectorsFrom (i b : Nat) : (vectorsFrom i b).length = grade b := by
  fun_induction vectorsFrom i b with
  | case1 => simp [grade]
  | case2 i b hb hodd ih =>
      rw [List.length_cons, ih, grade.eq_def b, if_neg hb, hodd, Nat.add_comm]
  | case3 i b hb heven ih =>
      rw [ih, grade.eq_def b, if_neg hb, Nat.mod_two_ne_one.mp heven, Nat.zero_add]

theorem length_vectors (b : Nat) : (vectors b).length = grade b := length_vectorsFrom 0 b

/-! ## The set of vectors -/

/-- The basis vectors of a blade, as a set. -/
def vectorSet (b : Nat) : Finset Nat := (vectors b).toFinset

@[simp] theorem mem_vectorSet {b j : Nat} : j ∈ vectorSet b ↔ b.testBit j = true := by
  simp [vectorSet, mem_vectors]

theorem grade_eq_card (b : Nat) : grade b = (vectorSet b).card := by
  rw [vectorSet, List.toFinset_card_of_nodup (nodup_vectors b), length_vectors]

/-- A blade is determined by its vectors. -/
theorem eq_of_vectorSet_eq {a b : Nat} (h : vectorSet a = vectorSet b) : a = b := by
  apply Nat.eq_of_testBit_eq
  intro i
  rw [Bool.eq_iff_iff, ← mem_vectorSet, h, mem_vectorSet]

@[simp] theorem vectorSet_zero : vectorSet 0 = ∅ := by
  ext i
  simp

@[simp] theorem vectorSet_ofVector (i : Nat) : vectorSet (ofVector i) = {i} := by
  ext j
  simp [ofVector, Nat.one_shiftLeft, Nat.testBit_two_pow, eq_comm]

theorem vectorSet_and (a b : Nat) : vectorSet (a &&& b) = vectorSet a ∩ vectorSet b := by
  ext i
  simp

theorem vectorSet_or (a b : Nat) : vectorSet (a ||| b) = vectorSet a ∪ vectorSet b := by
  ext i
  simp

theorem vectorSet_xor (a b : Nat) :
    vectorSet (a ^^^ b) = symmDiff (vectorSet a) (vectorSet b) := by
  ext i
  rw [Finset.mem_symmDiff, mem_vectorSet, mem_vectorSet, mem_vectorSet, Nat.testBit_xor]
  cases a.testBit i <;> cases b.testBit i <;> simp

/-- A shared vector counts in both blades and in neither of their vectors apart. -/
theorem grade_xor_add (a b : Nat) : grade (a ^^^ b) + 2 * grade (a &&& b) = grade a + grade b := by
  have hsymm : (symmDiff (vectorSet a) (vectorSet b)).card + (vectorSet a ∩ vectorSet b).card
      = (vectorSet a ∪ vectorSet b).card := by
    rw [← Finset.card_union_of_disjoint]
    · rw [← Finset.sup_eq_union, ← Finset.inf_eq_inter, symmDiff_sup_inf, Finset.sup_eq_union]
    · exact disjoint_symmDiff_inf _ _
  have hunion := Finset.card_union_add_card_inter (vectorSet a) (vectorSet b)
  simp only [grade_eq_card, vectorSet_xor, vectorSet_and]
  omega

theorem grade_eq_zero_iff {b : Nat} : grade b = 0 ↔ b = 0 := by
  rw [grade_eq_card, Finset.card_eq_zero]
  exact ⟨fun h => eq_of_vectorSet_eq (by rw [h, vectorSet_zero]),
    fun h => by rw [h, vectorSet_zero]⟩

theorem lt_two_pow_iff {b n : Nat} : b < 2 ^ n ↔ ∀ i ∈ vectorSet b, i < n := by
  constructor
  · intro h i hi
    by_contra hn
    have : b.testBit i = false :=
      Nat.testBit_lt_two_pow (h.trans_le (Nat.pow_le_pow_right (by decide) (not_lt.mp hn)))
    rw [mem_vectorSet, this] at hi
    exact absurd hi (by decide)
  · intro h
    refine Nat.lt_pow_two_of_testBit b fun i hi => ?_
    by_contra hb
    exact absurd (h i (mem_vectorSet.mpr (by simpa using hb))) (by omega)

theorem grade_le_of_lt {b n : Nat} (hb : b < 2 ^ n) : grade b ≤ n := by
  have hsub : vectorSet b ⊆ Finset.range n := fun i hi =>
    Finset.mem_range.mpr (lt_two_pow_iff.mp hb i hi)
  rw [grade_eq_card]
  exact (Finset.card_le_card hsub).trans_eq (Finset.card_range n)

/-! ## Basis vectors as blades -/

theorem ofVector_injective : Function.Injective ofVector := by
  intro i j h
  have hset := congrArg vectorSet h
  rwa [vectorSet_ofVector, vectorSet_ofVector, Finset.singleton_inj] at hset

theorem grade_ofVector (i : Nat) : grade (ofVector i) = 1 := by
  rw [grade_eq_card, vectorSet_ofVector, Finset.card_singleton]

theorem ofVector_lt_iff {i n : Nat} : ofVector i < 2 ^ n ↔ i < n := by
  rw [lt_two_pow_iff, vectorSet_ofVector]
  simp

theorem eq_ofVector_of_grade_eq_one {b : Nat} (h : grade b = 1) : ∃ i, b = ofVector i := by
  rw [grade_eq_card, Finset.card_eq_one] at h
  obtain ⟨i, hi⟩ := h
  exact ⟨i, eq_of_vectorSet_eq (by rw [hi, vectorSet_ofVector])⟩

/-! ## The largest vector -/

/-- Every blade is built from the scalar blade by putting a vector on top of smaller ones. -/
theorem topInduction {P : Nat → Prop} (zero : P 0)
    (top : ∀ c u, u < 2 ^ c → P u → P (2 ^ c + u)) (b : Nat) : P b := by
  induction b using Nat.strong_induction_on with
  | _ b ih =>
      rcases Nat.eq_zero_or_pos b with rfl | hb
      · exact zero
      · have hle : 2 ^ b.log2 ≤ b := Nat.log2_self_le hb.ne'
        have hlt : b < 2 ^ (b.log2 + 1) := Nat.lt_log2_self
        have hu : b - 2 ^ b.log2 < 2 ^ b.log2 := by rw [Nat.pow_succ] at hlt; omega
        have hpos : 0 < 2 ^ b.log2 := Nat.two_pow_pos _
        have := top b.log2 (b - 2 ^ b.log2) hu (ih _ (by omega))
        rwa [Nat.add_sub_of_le hle] at this

theorem lt_of_two_pow_add_lt {c u n : Nat} (h : 2 ^ c + u < 2 ^ n) : c < n :=
  (Nat.pow_lt_pow_iff_right (by decide)).mp (lt_of_le_of_lt (Nat.le_add_right _ u) h)

theorem vectorsFrom_add_top (c : Nat) :
    ∀ i u, u < 2 ^ c → vectorsFrom i (2 ^ c + u) = vectorsFrom i u ++ [i + c] := by
  induction c with
  | zero =>
      intro i u hu
      have hu0 : u = 0 := by simpa using hu
      subst hu0
      simp [vectorsFrom]
  | succ c ih =>
      intro i u hu
      -- halving keeps the top vector on top of the others
      have hhalf : (2 ^ (c + 1) + u) / 2 = 2 ^ c + u / 2 := by rw [Nat.pow_succ]; omega
      have hmod : (2 ^ (c + 1) + u) % 2 = u % 2 := by rw [Nat.pow_succ]; omega
      have hne : ¬ 2 ^ (c + 1) + u = 0 := by have := Nat.two_pow_pos (c + 1); omega
      have hu2 : u / 2 < 2 ^ c := by rw [Nat.pow_succ] at hu; omega
      have htail : vectorsFrom (i + 1) ((2 ^ (c + 1) + u) / 2)
          = vectorsFrom (i + 1) (u / 2) ++ [i + (c + 1)] := by
        rw [hhalf, ih (i + 1) (u / 2) hu2, Nat.add_right_comm i 1 c, Nat.add_assoc i c 1]
      rw [vectorsFrom, if_neg hne, hmod, htail]
      by_cases hu0 : u = 0
      · subst hu0
        simp [vectorsFrom]
      · rw [vectorsFrom.eq_def i u, if_neg hu0]
        split <;> simp

theorem vectors_add_top {c u : Nat} (hu : u < 2 ^ c) : vectors (2 ^ c + u) = vectors u ++ [c] := by
  simpa [vectors] using vectorsFrom_add_top c 0 u hu

theorem grade_add_top {c u : Nat} (hu : u < 2 ^ c) : grade (2 ^ c + u) = grade u + 1 := by
  rw [← length_vectors, vectors_add_top hu, List.length_append, length_vectors,
    List.length_singleton]

/-- A vector beyond all others goes on top. -/
theorem ofVector_or {c u : Nat} (hu : u < 2 ^ c) : ofVector c ||| u = 2 ^ c + u := by
  rw [ofVector, Nat.one_shiftLeft]
  simpa using (Nat.two_pow_add_eq_or_of_lt hu 1).symm

/-- A vector on top of a blade is outside the blade. -/
theorem and_ofVector_of_lt {c u : Nat} (hu : u < 2 ^ c) : u &&& ofVector c = 0 := by
  apply eq_of_vectorSet_eq
  rw [vectorSet_and, vectorSet_ofVector, vectorSet_zero]
  exact Finset.inter_singleton_of_notMem fun h => lt_irrefl c (lt_two_pow_iff.mp hu c h)

theorem two_pow_add_eq_xor {c u : Nat} (hu : u < 2 ^ c) : 2 ^ c + u = u ^^^ ofVector c := by
  rw [← ofVector_or hu, Nat.or_comm]
  apply eq_of_vectorSet_eq
  rw [vectorSet_or, vectorSet_xor, vectorSet_ofVector]
  refine ((symmDiff_eq_sup _ _).mpr ?_).symm
  exact Finset.disjoint_singleton_right.mpr fun h => absurd (lt_two_pow_iff.mp hu c h) (lt_irrefl c)

end Blade

end GeometricAlgebra
