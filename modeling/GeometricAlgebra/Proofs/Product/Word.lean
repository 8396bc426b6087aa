import GeometricAlgebra.Proofs.Product.Sign

set_option autoImplicit false

/-! # Words of basis vectors

The geometric product is what the relations `eᵢ eⱼ = -eⱼ eᵢ` and `eᵢ eᵢ = square i` make of words
in the basis vectors. A word is multiplied from left to right by `ofWord`; the relations sort it,
with a sign for every inversion, and then cancel equal neighbours in pairs, which is `wordSign`.

The step lemma is `geometricSign_ofVector`: a vector put behind a blade passes the larger vectors
of the blade and meets itself. It is folded over the word from the left; that the blade holds only
the vectors with an odd count does not change the parity of the vectors to pass
(`prod_map_eq_prod_ofWord`). -/

namespace GeometricAlgebra

namespace Product

open Blade

/-! ## Words and their products -/

/-- Multiplies a signed blade by a basis vector from the right. -/
def SignedBlade.mulVector (sig : Signature) (s : SignedBlade) (i : Nat) : SignedBlade :=
  let p := ofBlades .geometric sig s.blade (ofVector i)
  ⟨p.blade, s.sign * p.sign⟩

/-- The geometric product of a word of basis vectors, from left to right. -/
def ofWord (sig : Signature) (w : List Nat) : SignedBlade :=
  w.foldl (SignedBlade.mulVector sig) ⟨0, 1⟩

/-- The number of pairs of positions whose vectors stand in descending order. -/
def inversions (w : List Nat) : Nat :=
  (Finset.univ.filter fun p : Fin w.length × Fin w.length =>
    p.1 < p.2 ∧ w[p.2] < w[p.1]).card

/-- The sign of sorting a word and cancelling equal vectors in pairs. -/
def wordSign (sig : Signature) (w : List Nat) : Int :=
  (-1) ^ inversions w * ∏ i ∈ Finset.range sig.dimension, (sig.square i).sign ^ (w.count i / 2)

/-! ## Counting inversions -/

theorem sum_ite_getElem (w : List Nat) (p : Nat → Bool) :
    ∑ q : Fin w.length, (if p w[q] = true then 1 else 0) = w.countP p := by
  refine (Fin.sum_univ_fun_getElem w fun j => if p j = true then 1 else 0).trans ?_
  induction w with
  | nil => rfl
  | cons i w ih => rw [List.map_cons, List.sum_cons, ih, List.countP_cons, Nat.add_comm]

theorem inversions_cons (i : Nat) (w : List Nat) :
    inversions (i :: w) = w.countP (· < i) + inversions w := by
  have hcount := sum_ite_getElem w (· < i)
  simp only [decide_eq_true_eq] at hcount
  simp only [inversions, Finset.card_filter, Fintype.sum_prod_type]
  rw [← hcount]
  refine (Fin.sum_univ_succ _).trans ?_
  congr 1
  · refine (Fin.sum_univ_succ _).trans ?_
    simp
  · refine Finset.sum_congr rfl fun p _ => (Fin.sum_univ_succ _).trans ?_
    simp

theorem inversions_append_singleton (w : List Nat) (i : Nat) :
    inversions (w ++ [i]) = inversions w + w.countP (i < ·) := by
  induction w with
  | nil => rfl
  | cons j w ih =>
      rw [List.cons_append, inversions_cons, inversions_cons, ih, List.countP_append,
        List.countP_cons, List.countP_cons, List.countP_nil]
      simp only [decide_eq_true_eq]
      omega

/-! ## One vector -/

theorem metricSign_and_ofVector (sig : Signature) (a i : Nat) :
    metricSign sig (a &&& ofVector i) = if a.testBit i then (sig.square i).sign else 1 := by
  rw [metricSign_eq_prod, vectorSet_and, vectorSet_ofVector]
  by_cases h : a.testBit i = true
  · rw [if_pos h, Finset.inter_singleton_of_mem (mem_vectorSet.mpr h), Finset.prod_singleton]
  · rw [if_neg h, Finset.inter_singleton_of_notMem (fun hi => h (mem_vectorSet.mp hi)),
      Finset.prod_empty]

/-- A vector behind a blade meets itself, if the blade has it, and passes the larger vectors. -/
theorem geometricSign_ofVector (sig : Signature) (a i : Nat) :
    geometricSign sig a (ofVector i)
      = (if a.testBit i then (sig.square i).sign else 1) * ∏ j ∈ vectorSet a, swapSign j i := by
  rw [geometricSign_eq, metricSign_and_ofVector, reorderSign_eq_prod, vectorSet_ofVector]
  simp only [Finset.prod_singleton]

theorem ofWord_append_singleton (sig : Signature) (w : List Nat) (i : Nat) :
    ofWord sig (w ++ [i])
      = ⟨(ofWord sig w).blade ^^^ ofVector i,
          (ofWord sig w).sign * geometricSign sig (ofWord sig w).blade (ofVector i)⟩ := by
  rw [ofWord, List.foldl_append, List.foldl_cons, List.foldl_nil, ← ofWord, SignedBlade.mulVector,
    ofBlades, sign_geometric]

/-! ## A whole word -/

/-- The blade of a word has the vectors that occur an odd number of times. -/
theorem ofWord_testBit (sig : Signature) (w : List Nat) (i : Nat) :
    (ofWord sig w).blade.testBit i = decide (w.count i % 2 = 1) := by
  induction w using List.reverseRecOn with
  | nil => simp [ofWord]
  | append_singleton w j ih =>
      rw [ofWord_append_singleton, Nat.testBit_xor, ih, List.count_append, ofVector,
        Nat.one_shiftLeft, Nat.testBit_two_pow, List.count_singleton]
      by_cases hij : j = i
      · subst hij
        rcases Nat.mod_two_eq_zero_or_one (w.count j) with h | h
        · simp [h, Nat.add_mod]
        · simp [h, Nat.add_mod]
      · simp [hij]

/-- Signs multiply over a word as over its blade: a vector that occurs an even number of times
    contributes nothing. -/
theorem prod_map_eq_prod_ofWord (sig : Signature) (w : List Nat) (f : Nat → Int)
    (hf : ∀ i, f i * f i = 1) : (w.map f).prod = ∏ i ∈ vectorSet (ofWord sig w).blade, f i := by
  induction w using List.reverseRecOn with
  | nil => simp [ofWord]
  | append_singleton w j ih =>
      rw [ofWord_append_singleton, vectorSet_xor, prod_symmDiff _ _ _ hf, List.map_append,
        List.prod_append, ih, vectorSet_ofVector]
      simp

theorem prod_map_swapSign (w : List Nat) (i : Nat) :
    (w.map (swapSign · i)).prod = (-1) ^ w.countP (i < ·) := by
  induction w with
  | nil => rfl
  | cons j w ih =>
      rw [List.map_cons, List.prod_cons, ih, List.countP_cons, swapSign]
      by_cases h : i < j
      · rw [if_pos h, if_pos (by simpa using h), pow_succ, mul_comm]
      · rw [if_neg h, if_neg (by simpa using h), one_mul, Nat.add_zero]

/-- The squares that a word has cancelled, with one more vector: a second one completes a pair. -/
theorem prod_squares_append_singleton (sig : Signature) (w : List Nat) {j : Nat}
    (hj : j < sig.dimension) :
    ∏ i ∈ Finset.range sig.dimension, (sig.square i).sign ^ ((w ++ [j]).count i / 2)
      = (∏ i ∈ Finset.range sig.dimension, (sig.square i).sign ^ (w.count i / 2))
        * (if w.count j % 2 = 1 then (sig.square j).sign else 1) := by
  have hlast : (if w.count j % 2 = 1 then (sig.square j).sign else 1)
      = ∏ i ∈ Finset.range sig.dimension,
          if i = j then (if w.count j % 2 = 1 then (sig.square j).sign else 1) else 1 := by
    rw [Finset.prod_ite_eq', if_pos (Finset.mem_range.mpr hj)]
  rw [hlast, ← Finset.prod_mul_distrib]
  refine Finset.prod_congr rfl fun i _ => ?_
  rw [List.count_append, List.count_singleton]
  by_cases hij : i = j
  · subst hij
    rw [if_pos rfl]
    simp only [beq_self_eq_true, if_true]
    by_cases hodd : w.count i % 2 = 1
    · rw [if_pos hodd, ← pow_succ]
      congr 1
      omega
    · rw [if_neg hodd, mul_one]
      congr 1
      omega
  · rw [if_neg hij, mul_one]
    have : (j == i) = false := by simpa using fun h : j = i => hij h.symm
    simp [this]

theorem ofWord_sign (sig : Signature) (w : List Nat) (hw : ∀ i ∈ w, i < sig.dimension) :
    (ofWord sig w).sign = wordSign sig w := by
  induction w using List.reverseRecOn with
  | nil => simp [ofWord, wordSign, inversions]
  | append_singleton w j ih =>
      -- the new vector passes the blade of the word as it passes the word
      have hpass : ∏ i ∈ vectorSet (ofWord sig w).blade, swapSign i j
          = (-1) ^ w.countP (j < ·) := by
        rw [← prod_map_eq_prod_ofWord sig w _ (fun i => swapSign_mul_self i j), prod_map_swapSign]
      rw [ofWord_append_singleton, ih fun i hi => hw i (List.mem_append_left _ hi),
        geometricSign_ofVector, ofWord_testBit, hpass, wordSign, wordSign,
        inversions_append_singleton, pow_add,
        prod_squares_append_singleton sig w (hw j (by simp))]
      simp only [decide_eq_true_eq]
      ring

/-! ## Blades as ascending words -/

/-- Multiplying by the vectors of a blade one after another multiplies by the blade. -/
theorem foldl_mulVector_vectors (sig : Signature) (s : SignedBlade) (b : Nat) :
    (vectors b).foldl (SignedBlade.mulVector sig) s
      = ⟨s.blade ^^^ b, s.sign * geometricSign sig s.blade b⟩ := by
  induction b using topInduction with
  | zero => simp [vectors, vectorsFrom]
  | top c u hu ih =>
      -- the vectors below `c` are in place, so `c` follows them without a sign
      have hplace : geometricSign sig u (ofVector c) = 1 := by
        rw [geometricSign_eq, and_ofVector_of_lt hu, metricSign_zero, reorderSign_ofVector_of_lt hu,
          one_mul]
      have hstep := geometricSign_cocycle sig s.blade u (ofVector c)
      rw [hplace, one_mul] at hstep
      rw [vectors_add_top hu, List.foldl_append, ih, List.foldl_cons, List.foldl_nil,
        SignedBlade.mulVector, ofBlades, sign_geometric, two_pow_add_eq_xor hu, ← hstep,
        Nat.xor_assoc, mul_assoc]

theorem ofWord_vectors_append (sig : Signature) (a b : Nat) :
    ofWord sig (vectors a ++ vectors b) = ⟨a ^^^ b, geometricSign sig a b⟩ := by
  rw [ofWord, List.foldl_append, foldl_mulVector_vectors, foldl_mulVector_vectors]
  simp

/-! ## The sign of a word -/

/-- **The sign engine is the Clifford algebra of the signature**: a word of basis vectors is the
    blade of the vectors that occur an odd number of times, with a sign `-1` for every inversion and
    the square of every pair of equal vectors; and the sign of a product of two blades is that of
    the word of all their vectors. -/
theorem ofWord_blade_sign (sig : Signature) :
    (∀ w : List Nat, (∀ i ∈ w, i < sig.dimension) →
      (∀ i, (ofWord sig w).blade.testBit i = decide (w.count i % 2 = 1)) ∧
      (ofWord sig w).sign = wordSign sig w) ∧
    ∀ a b : Nat, a < 2 ^ sig.dimension → b < 2 ^ sig.dimension →
      geometricSign sig a b = wordSign sig (vectors a ++ vectors b) := by
  refine ⟨fun w hw => ⟨ofWord_testBit sig w, ofWord_sign sig w hw⟩, fun a b ha hb => ?_⟩
  have hvectors : ∀ i ∈ vectors a ++ vectors b, i < sig.dimension := by
    intro i hi
    rcases List.mem_append.mp hi with h | h
    · exact lt_two_pow_iff.mp ha i (mem_vectorSet.mpr (mem_vectors.mp h))
    · exact lt_two_pow_iff.mp hb i (mem_vectorSet.mpr (mem_vectors.mp h))
  rw [← ofWord_sign sig _ hvectors, ofWord_vectors_append]

/-- The word `e₁ e₀ e₂ e₁ e₀ e₁`, and the blades `e₀ e₁` and `e₁ e₂`. -/
theorem ofWord_blade_sign_mixed :
    (∀ i ∈ [1, 0, 2, 1, 0, 1], i < Signature.mixed.dimension) ∧
      (ofWord .mixed [1, 0, 2, 1, 0, 1]).blade.testBit 1 = true ∧
      (ofWord .mixed [1, 0, 2, 1, 0, 1]).sign = -1 ∧
      geometricSign .mixed 3 6 = -1 := by
  obtain ⟨hword, hpair⟩ := ofWord_blade_sign .mixed
  have hw : ∀ i ∈ [1, 0, 2, 1, 0, 1], i < Signature.mixed.dimension := by decide
  obtain ⟨hblade, hsign⟩ := hword _ hw
  refine ⟨hw, ?_, ?_, ?_⟩
  · rw [hblade]
    decide
  · rw [hsign]
    decide +kernel
  · rw [hpair 3 6 (by decide) (by decide)]
    decide +kernel

end Product

end GeometricAlgebra
