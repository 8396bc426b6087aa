import GeometricAlgebra.Proofs.Algebra.Convolution
import GeometricAlgebra.Proofs.Product.Sign

set_option autoImplicit false

/-! # The outer product of families of coefficients

The outer product of two families of coefficients, indexed by all blades, needs no dimension: the
coefficient of a blade is a sum over its parts, of which there are finitely many. In an algebra with
enough vectors it is the convolution with the signs of the outer product
(`outerProduct_eq_convolve`), so it is associative. It is bilinear, and families of one grade each
commute up to a sign (`outerProduct_swap`). Two vectors anticommute, and as two may not be
cancelled, that the product of a vector with itself is zero is a statement of its own:
`outerProduct_self`. -/

namespace GeometricAlgebra

open Blade Product

variable {α : Type} [CommRing α]

/-! ## Signs -/

/-- The sign of the outer product of two blades as a scalar. -/
def outerSign (a b : Nat) : α := if a &&& b = 0 then (reorderSign a b : α) else 0

theorem outerSign_of_disjoint {a b : Nat} (h : a &&& b = 0) :
    (outerSign a b : α) = (reorderSign a b : α) := if_pos h

theorem outerSign_zero_left (b : Nat) : (outerSign 0 b : α) = 1 := by
  simp [outerSign]

theorem outerSign_zero_right (a : Nat) : (outerSign a 0 : α) = 1 := by
  simp [outerSign]

/-- Of three blades no two share a vector, whichever two are multiplied first. -/
theorem and_xor_eq_zero_iff (a b c : Nat) :
    (a &&& b = 0 ∧ (a ^^^ b) &&& c = 0) ↔ (b &&& c = 0 ∧ a &&& (b ^^^ c) = 0) := by
  simp only [and_eq_zero_iff, Nat.testBit_xor]
  constructor
  · rintro ⟨hab, habc⟩
    refine ⟨fun i => ?_, fun i => ?_⟩
    all_goals
      have h1 := hab i
      have h2 := habc i
      revert h1 h2
      cases a.testBit i <;> cases b.testBit i <;> cases c.testBit i <;> decide
  · rintro ⟨hbc, habc⟩
    refine ⟨fun i => ?_, fun i => ?_⟩
    all_goals
      have h1 := hbc i
      have h2 := habc i
      revert h1 h2
      cases a.testBit i <;> cases b.testBit i <;> cases c.testBit i <;> decide

theorem outerSign_cocycle (a b c : Nat) :
    (outerSign a b * outerSign (a ^^^ b) c : α) = outerSign b c * outerSign a (b ^^^ c) := by
  have hiff := and_xor_eq_zero_iff a b c
  by_cases h : a &&& b = 0 ∧ (a ^^^ b) &&& c = 0
  · obtain ⟨hbc, habc⟩ := hiff.mp h
    rw [outerSign_of_disjoint h.1, outerSign_of_disjoint h.2, outerSign_of_disjoint hbc,
      outerSign_of_disjoint habc, reorderSign_xor_left, reorderSign_xor_right]
    push_cast
    ring
  · -- some vector is shared, so a factor is zero on either side
    have hleft : (outerSign a b * outerSign (a ^^^ b) c : α) = 0 := by
      rcases not_and_or.mp h with h | h
      · rw [outerSign, if_neg h, zero_mul]
      · rw [outerSign.eq_def (a ^^^ b), if_neg h, mul_zero]
    have hright : (outerSign b c * outerSign a (b ^^^ c) : α) = 0 := by
      rcases not_and_or.mp (fun h' => h (hiff.mpr h')) with h | h
      · rw [outerSign, if_neg h, zero_mul]
      · rw [outerSign.eq_def a, if_neg h, mul_zero]
    rw [hleft, hright]

/-! ## Parts of a blade -/

/-- The blades within a blade. -/
def parts (r : Nat) : Finset Nat := (Finset.range (r + 1)).filter fun i => within i r = true

theorem mem_parts {i r : Nat} : i ∈ parts r ↔ within i r = true := by
  rw [parts, Finset.mem_filter, Finset.mem_range, and_iff_right_iff_imp]
  intro h
  rw [within, beq_iff_eq] at h
  exact Nat.lt_succ_of_le (h ▸ Nat.and_le_right)

/-- A part and what it leaves share no vector. -/
theorem within_iff_and_xor {i r : Nat} : within i r = true ↔ i &&& (r ^^^ i) = 0 := by
  rw [within_iff, and_eq_zero_iff]
  refine forall_congr' fun j => ?_
  rw [Nat.testBit_xor]
  cases i.testBit j <;> cases r.testBit j <;> decide

theorem xor_mem_parts {i r : Nat} (h : i ∈ parts r) : r ^^^ i ∈ parts r := by
  rw [mem_parts, within_iff_and_xor] at h ⊢
  rwa [Nat.xor_xor_cancel_left, Nat.and_comm]

theorem lt_of_mem_parts {i r n : Nat} (h : i ∈ parts r) (hr : r < 2 ^ n) : i < 2 ^ n := by
  rw [mem_parts, within, beq_iff_eq] at h
  exact (h ▸ Nat.and_le_right).trans_lt hr

/-! ## The outer product -/

/-- The outer product of two families of coefficients. -/
def outerProduct (x y : Nat → α) (r : Nat) : α :=
  ∑ i ∈ parts r, (reorderSign i (r ^^^ i) : α) * x i * y (r ^^^ i)

/-- The family of one blade. -/
def bladeFamily (b r : Nat) : α := if r = b then 1 else 0

/-- In an algebra with enough vectors the outer product is a convolution. -/
theorem outerProduct_eq_convolve {n : Nat} (x y : Nat → α) {r : Nat} (hr : r < 2 ^ n) :
    outerProduct x y r = convolve n outerSign x y r := by
  have hinner : ∀ i ∈ Finset.range (2 ^ n),
      (∑ j ∈ Finset.range (2 ^ n), if i ^^^ j = r then outerSign i j * x i * y j else 0)
        = if within i r = true then (reorderSign i (r ^^^ i) : α) * x i * y (r ^^^ i) else 0 := by
    intro i hi
    have hlt := Nat.xor_lt_two_pow hr (Finset.mem_range.mp hi)
    have hcancel : i ^^^ (r ^^^ i) = r := by rw [Nat.xor_comm r, Nat.xor_xor_cancel_left]
    rw [Finset.sum_eq_single (r ^^^ i)]
    · rw [if_pos hcancel, outerSign]
      simp only [within_iff_and_xor]
      split
      · rfl
      · rw [zero_mul, zero_mul]
    · intro j _ hj
      refine if_neg fun h => hj ?_
      rw [← h, Nat.xor_comm i, Nat.xor_xor_cancel_right]
    · exact fun h => absurd (Finset.mem_range.mpr hlt) h
  have hparts : (Finset.range (2 ^ n)).filter (fun i => within i r = true) = parts r := by
    ext i
    rw [Finset.mem_filter, Finset.mem_range, ← mem_parts, and_iff_right_iff_imp]
    exact fun h => lt_of_mem_parts h hr
  rw [convolve, Finset.sum_congr rfl hinner, ← Finset.sum_filter, hparts, outerProduct]

/-- The product of two blades is a multiple of one blade. -/
theorem convolve_bladeFamily {n a b : Nat} (σ : Nat → Nat → α) (ha : a < 2 ^ n) (hb : b < 2 ^ n) :
    convolve n σ (bladeFamily a) (bladeFamily b) = σ a b • bladeFamily (a ^^^ b) := by
  funext r
  rw [convolve, Finset.sum_eq_single_of_mem a (Finset.mem_range.mpr ha),
    Finset.sum_eq_single_of_mem b (Finset.mem_range.mpr hb)]
  · simp [bladeFamily, eq_comm]
  · intro j _ hj
    simp [bladeFamily, hj]
  · intro i _ hi
    simp [bladeFamily, hi]

theorem outerProduct_bladeFamily (a b : Nat) :
    outerProduct (bladeFamily a : Nat → α) (bladeFamily b)
      = (outerSign a b : α) • bladeFamily (a ^^^ b) := by
  funext r
  -- an algebra that has all three blades
  have hlt : ∀ c ≤ a + b + r, c < 2 ^ (a + b + r) := fun c hc =>
    Nat.lt_two_pow_self.trans_le (Nat.pow_le_pow_right (by decide) hc)
  rw [outerProduct_eq_convolve _ _ (hlt r (by omega)),
    convolve_bladeFamily _ (hlt a (by omega)) (hlt b (by omega))]

theorem outerProduct_eq_zero {n : Nat} {x y : Nat → α} (hx : ∀ i, 2 ^ n ≤ i → x i = 0)
    (hy : ∀ i, 2 ^ n ≤ i → y i = 0) {r : Nat} (hr : 2 ^ n ≤ r) : outerProduct x y r = 0 := by
  refine Finset.sum_eq_zero fun i _ => ?_
  rcases Nat.lt_or_ge i (2 ^ n) with hi | hi
  · have hrest : 2 ^ n ≤ r ^^^ i := by
      by_contra hlt
      have hxor := Nat.xor_lt_two_pow (not_le.mp hlt) hi
      rw [Nat.xor_xor_cancel_right] at hxor
      omega
    rw [hy _ hrest, mul_zero]
  · rw [hx i hi, mul_zero, zero_mul]

theorem outerProduct_assoc (x y z : Nat → α) :
    outerProduct (outerProduct x y) z = outerProduct x (outerProduct y z) := by
  funext r
  have hr : r < 2 ^ r := Nat.lt_two_pow_self
  rw [outerProduct_eq_convolve _ _ hr, outerProduct_eq_convolve _ _ hr,
    convolve_congr _ (fun i hi => outerProduct_eq_convolve x y hi) (fun _ _ => rfl),
    convolve_congr _ (fun _ _ => rfl) (fun i hi => outerProduct_eq_convolve y z hi)]
  exact convolve_assoc outerSign_cocycle x y z r

theorem outerProduct_blade_zero_left (x : Nat → α) : outerProduct (bladeFamily 0) x = x := by
  funext r
  have hr : r < 2 ^ r := Nat.lt_two_pow_self
  rw [outerProduct_eq_convolve _ _ hr]
  exact convolve_unit_left outerSign_zero_left (x := bladeFamily 0) (if_pos rfl)
    (fun i hi => if_neg hi) x hr

theorem outerProduct_blade_zero_right (x : Nat → α) : outerProduct x (bladeFamily 0) = x := by
  funext r
  have hr : r < 2 ^ r := Nat.lt_two_pow_self
  rw [outerProduct_eq_convolve _ _ hr]
  exact convolve_unit_right outerSign_zero_right x (y := bladeFamily 0) (if_pos rfl)
    (fun i hi => if_neg hi) hr

/-! ## Bilinearity -/

/-- The outer product as a bilinear map. -/
def outerBilinear : (Nat → α) →ₗ[α] (Nat → α) →ₗ[α] (Nat → α) :=
  LinearMap.mk₂ α outerProduct
    (fun x x' y => by
      funext r
      simp only [outerProduct, Pi.add_apply, ← Finset.sum_add_distrib]
      exact Finset.sum_congr rfl fun i _ => by ring)
    (fun c x y => by
      funext r
      simp only [outerProduct, Pi.smul_apply, smul_eq_mul, Finset.mul_sum]
      exact Finset.sum_congr rfl fun i _ => by ring)
    (fun x y y' => by
      funext r
      simp only [outerProduct, Pi.add_apply, ← Finset.sum_add_distrib]
      exact Finset.sum_congr rfl fun i _ => by ring)
    (fun c x y => by
      funext r
      simp only [outerProduct, Pi.smul_apply, smul_eq_mul, Finset.mul_sum]
      exact Finset.sum_congr rfl fun i _ => by ring)

theorem outerProduct_smul_left (c : α) (x y : Nat → α) :
    outerProduct (c • x) y = c • outerProduct x y := LinearMap.map_smul₂ outerBilinear c x y

theorem outerProduct_smul_right (c : α) (x y : Nat → α) :
    outerProduct x (c • y) = c • outerProduct x y := (outerBilinear x).map_smul c y

theorem outerProduct_neg_right (x y : Nat → α) : outerProduct x (-y) = -outerProduct x y :=
  (outerBilinear x).map_neg y

theorem outerProduct_sub_left (x y z : Nat → α) :
    outerProduct (x - y) z = outerProduct x z - outerProduct y z :=
  LinearMap.map_sub₂ outerBilinear x y z

theorem outerProduct_sub_right (x y z : Nat → α) :
    outerProduct x (y - z) = outerProduct x y - outerProduct x z :=
  (outerBilinear x).map_sub y z

@[simp] theorem outerProduct_zero_left (x : Nat → α) : outerProduct 0 x = 0 :=
  LinearMap.map_zero₂ outerBilinear x

@[simp] theorem outerProduct_zero_right (x : Nat → α) : outerProduct x 0 = 0 :=
  (outerBilinear x).map_zero

theorem outerProduct_sum_left {ι : Type} (s : Finset ι) (x : ι → Nat → α) (y : Nat → α) :
    outerProduct (∑ i ∈ s, x i) y = ∑ i ∈ s, outerProduct (x i) y :=
  LinearMap.map_sum₂ outerBilinear s x y

theorem outerProduct_sum_right {ι : Type} (s : Finset ι) (x : Nat → α) (y : ι → Nat → α) :
    outerProduct x (∑ i ∈ s, y i) = ∑ i ∈ s, outerProduct x (y i) :=
  map_sum (outerBilinear x) y s

/-! ## Families of one grade -/

/-- The family has coefficients on blades of grade `k` of an `n`-dimensional algebra alone. -/
def OfGrade (n k : Nat) (x : Nat → α) : Prop := ∀ r, x r ≠ 0 → r < 2 ^ n ∧ grade r = k

section OfGrade

variable {n k l : Nat} {x y : Nat → α}

theorem OfGrade.eq_zero (h : OfGrade n k x) {r : Nat} (hr : ¬ (r < 2 ^ n ∧ grade r = k)) :
    x r = 0 := by
  by_contra hne
  exact hr (h r hne)

theorem OfGrade.sub (hx : OfGrade n k x) (hy : OfGrade n k y) : OfGrade n k (x - y) := by
  intro r hr
  by_contra hout
  rw [Pi.sub_apply, hx.eq_zero hout, hy.eq_zero hout, sub_zero] at hr
  exact hr rfl

theorem grade_xor_of_disjoint {a b : Nat} (h : a &&& b = 0) :
    grade (a ^^^ b) = grade a + grade b := by
  have hcount := grade_xor_add a b
  rwa [h, grade_eq_zero_iff.mpr rfl] at hcount

theorem OfGrade.outerProduct (hx : OfGrade n k x) (hy : OfGrade n l y) :
    OfGrade n (k + l) (outerProduct x y) := by
  intro r hr
  obtain ⟨i, hi, hne⟩ := Finset.exists_ne_zero_of_sum_ne_zero hr
  obtain ⟨hlt, hgrade⟩ := hx i (right_ne_zero_of_mul (left_ne_zero_of_mul hne))
  obtain ⟨hlt', hgrade'⟩ := hy (r ^^^ i) (right_ne_zero_of_mul hne)
  have hcancel : i ^^^ (r ^^^ i) = r := by rw [Nat.xor_comm r, Nat.xor_xor_cancel_left]
  have hdisjoint := within_iff_and_xor.mp (mem_parts.mp hi)
  refine ⟨?_, ?_⟩
  · rw [← hcancel]
    exact Nat.xor_lt_two_pow hlt hlt'
  · rw [← hcancel, grade_xor_of_disjoint hdisjoint, hgrade, hgrade']

theorem ofGrade_bladeFamily {b : Nat} (hb : b < 2 ^ n) :
    OfGrade n (grade b) (bladeFamily b : Nat → α) := by
  intro r hr
  have : r = b := by
    by_contra h
    exact hr (if_neg h)
  exact ⟨this ▸ hb, by rw [this]⟩

end OfGrade

/-! ## Exchanging factors -/

section Exchange

variable {n k l : Nat} {x y : Nat → α}

/-- In the outer products of two families in both orders every pair of blades comes twice. -/
theorem outerProduct_term_swap (hx : OfGrade n k x) (hy : OfGrade n l y) {r i : Nat}
    (hi : i ∈ parts r) :
    (reorderSign (r ^^^ i) i : α) * y (r ^^^ i) * x i
      = (-1) ^ (k * l) * ((reorderSign i (r ^^^ i) : α) * x i * y (r ^^^ i)) := by
  by_cases hzero : x i = 0 ∨ y (r ^^^ i) = 0
  · rcases hzero with h | h <;> simp [h]
  · obtain ⟨hxi, hyi⟩ := not_or.mp hzero
    have hdisjoint := within_iff_and_xor.mp (mem_parts.mp hi)
    rw [reorderSign_swap hdisjoint, (hx _ hxi).2, (hy _ hyi).2]
    push_cast
    ring

/-- **Exchanging the factors of an outer product gives a sign, which their grades decide.** -/
theorem outerProduct_swap (hx : OfGrade n k x) (hy : OfGrade n l y) :
    outerProduct y x = (-1 : α) ^ (k * l) • outerProduct x y := by
  funext r
  rw [Pi.smul_apply, smul_eq_mul, outerProduct, outerProduct, Finset.mul_sum]
  refine Finset.sum_nbij' (r ^^^ ·) (r ^^^ ·) (fun i => xor_mem_parts) (fun i => xor_mem_parts)
    (fun i _ => Nat.xor_xor_cancel_left r i) (fun i _ => Nat.xor_xor_cancel_left r i) fun i hi => ?_
  rw [← outerProduct_term_swap hx hy (xor_mem_parts hi), Nat.xor_xor_cancel_left]

theorem outerProduct_neg_comm (hx : OfGrade n 1 x) (hy : OfGrade n 1 y) :
    outerProduct x y = -outerProduct y x := by
  rw [outerProduct_swap hy hx, one_mul, pow_one, neg_one_smul]

/-- Of a vector with itself every pair of different vectors comes with both signs. -/
theorem outerProduct_self (hx : OfGrade n 1 x) : outerProduct x x = 0 := by
  funext r
  refine Finset.sum_involution (fun i _ => r ^^^ i) ?_ ?_ (fun i => xor_mem_parts)
    (fun i _ => Nat.xor_xor_cancel_left r i)
  · intro i hi
    rw [Nat.xor_xor_cancel_left, outerProduct_term_swap hx hx hi, one_mul, pow_one, neg_one_mul,
      add_neg_cancel]
  · intro i hi hne heq
    -- only the scalar blade is disjoint from itself, and a vector has no scalar part
    have hgrade := (hx i (right_ne_zero_of_mul (left_ne_zero_of_mul hne))).2
    have hdisjoint := within_iff_and_xor.mp (mem_parts.mp hi)
    rw [heq, Nat.and_self] at hdisjoint
    rw [hdisjoint, grade_eq_card, vectorSet_zero, Finset.card_empty] at hgrade
    exact absurd hgrade (by decide)

end Exchange

end GeometricAlgebra
