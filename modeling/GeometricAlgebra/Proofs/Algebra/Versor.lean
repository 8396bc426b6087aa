import GeometricAlgebra.Proofs.Algebra.Geometric
import GeometricAlgebra.Proofs.Algebra.Norm

set_option autoImplicit false

/-! # Versors

A versor is a product of vectors. A versor times its reverse is a scalar, as the vectors that meet
in the middle make one and it moves out of the way (`convolve_inner_scalar`). That scalar is the
squared norm, so a versor whose norm is not zero has the inverse that `versorInverse` computes.

The invariant is `IsVersor`. The scalar one has it, multiplying by a vector keeps it
(`IsVersor.mul_vector`), and so a whole product of vectors has it (`foldlM_versor`). -/

namespace GeometricAlgebra

open Blade Product Grade

namespace Algebra

/-! ## Families -/

section Families

variable {α : Type} [CommRing α] {A : Algebra α} {x y v w : Nat → α} {q : α}

/-- Inner factors that multiply to a scalar move out of a product. -/
theorem convolve_inner_scalar
    (h : convolve A.dimension (A.signs .geometric) v w = q • bladeFamily 0) (x y : Nat → α) :
    convolve A.dimension (A.signs .geometric) (convolve A.dimension (A.signs .geometric) x v)
        (convolve A.dimension (A.signs .geometric) w y)
      = q • convolve A.dimension (A.signs .geometric) x y := by
  rw [convolve_geometric_assoc, ← convolve_geometric_assoc v w y, h, convolve_smul_left,
    convolve_smul_right]
  congr 1
  exact funext (convolve_congr _ (fun _ _ => rfl) fun _ => convolve_one_left y)

/-- A family and its reverse multiply to the scalar `q`, in both orders. -/
structure IsVersor (A : Algebra α) (x : Nat → α) (q : α) : Prop where
  mul_reverse : convolve A.dimension (A.signs .geometric) x (gradeSigns reverseSign * x)
    = q • bladeFamily 0
  reverse_mul : convolve A.dimension (A.signs .geometric) (gradeSigns reverseSign * x) x
    = q • bladeFamily 0

theorem isVersor_one : IsVersor A (bladeFamily 0) 1 := by
  have hpos := Nat.two_pow_pos A.dimension
  have hreverse : gradeSigns reverseSign * bladeFamily 0 = (bladeFamily 0 : Nat → α) := by
    rw [gradeSigns_mul_of_grade (ofGrade_bladeFamily hpos), grade_eq_zero_iff.mpr rfl,
      show reverseSign 0 = 1 from rfl, Int.cast_one, one_smul]
  have hone : convolve A.dimension (A.signs .geometric) (bladeFamily 0) (bladeFamily 0)
      = (1 : α) • bladeFamily 0 := by
    rw [convolve_bladeFamily _ hpos hpos, signs, sign_geometric]
    simp
  exact ⟨hreverse.symm ▸ hone, hreverse.symm ▸ hone⟩

namespace IsVersor

variable (h : IsVersor A x q)

include h

/-- **A versor times a vector is a versor.** The reverse of the product begins with the vector. -/
theorem mul_vector (hv : OfGrade A.dimension 1 v) :
    IsVersor A (convolve A.dimension (A.signs .geometric) x v)
      (q * convolve A.dimension (A.signs .scalar) v v 0) := by
  have hreverse : gradeSigns reverseSign * convolve A.dimension (A.signs .geometric) x v
      = convolve A.dimension (A.signs .geometric) v (gradeSigns reverseSign * x) := by
    rw [gradeSigns_mul_convolve_mirror (reverseSign_mul_sign .geometric A.signature),
      gradeSigns_mul_of_grade hv, show reverseSign 1 = 1 from rfl, Int.cast_one, one_smul]
    rfl
  constructor
  · rw [hreverse, convolve_inner_scalar (convolve_geometric_self hv), h.mul_reverse, smul_smul,
      mul_comm]
  · rw [hreverse, convolve_inner_scalar h.reverse_mul, convolve_geometric_self hv, smul_smul]

/-- The scalar is the squared norm. -/
theorem norm_eq :
    convolve A.dimension (A.signs .scalar) x (gradeSigns reverseSign * x) 0 = q := by
  rw [convolve_scalar_zero, h.mul_reverse, Pi.smul_apply, bladeFamily, if_pos rfl, smul_eq_mul,
    mul_one]

end IsVersor

end Families

/-! ## Multivectors -/

section Ring

variable {α : Type} [CommRing α] {A : Algebra α} {a : Multivector α} {x : Nat → α} {q : α}
  (hS : A.scalars.IsRing) (hE : A.scalars.IsExact)

include hS hE

theorem normSquared_eq (ha : a.HasCoeffs A.dimension x) (hx : IsVersor A x q) :
    A.normSquared a = .ok q := by
  rw [normSquared_of_hasCoeffs hS hE ha, hx.norm_eq]

/-- **Multiplying a versor by vectors gives a versor.** Its scalar gets the scalar product of every
    vector with itself as a factor. -/
theorem foldlM_versor {vs : List (Multivector α)}
    (hvs : ∀ v ∈ vs, v.InRange A.dimension ∧ ∀ t ∈ v.terms, grade t.1 = 1)
    (ha : a.HasCoeffs A.dimension x) (hx : IsVersor A x q) :
    ∃ b squares y, vs.foldlM (A.product .geometric) a = .ok b ∧
      vs.mapM (fun v => A.scalarProduct v v) = .ok squares ∧ b.HasCoeffs A.dimension y ∧
      IsVersor A y (q * squares.prod) := by
  -- behind the first vector the product starts anew from another versor
  induction vs generalizing a x q with
  | nil => exact ⟨a, [], x, rfl, rfl, ha, by simpa using hx⟩
  | cons v vs ih =>
      obtain ⟨⟨hrange, hgrade⟩, hvs⟩ := List.forall_mem_cons.mp hvs
      have hv := hrange.hasCoeffs_toTerms A.dimension_le
      have hsquare := scalarProduct_eq hS hE hv hv
      obtain ⟨m, hm, rm⟩ := yields_product hS hE .geometric ha hv
      obtain ⟨b, squares, y, hb, hsquares, hy, hversor⟩ := ih hvs (rm.hasCoeffs hE A.dimension_le)
        (hx.mul_vector (hrange.ofGrade_toTerms A.dimension_le hgrade))
      set w := Terms.coeff v.toTerms
      refine ⟨b, convolve A.dimension (A.signs .scalar) w w 0 :: squares, y, ?_, ?_, hy, ?_⟩
      · rw [List.foldlM_cons, hm]
        exact hb
      · rw [List.mapM_cons, hsquare, hsquares]
        rfl
      · rwa [List.prod_cons, ← mul_assoc]

end Ring

/-! ## The inverse -/

section Field

variable {α : Type} [Field α] {A : Algebra α} {a : Multivector α} {x : Nat → α} {q : α}
  (hS : A.scalars.IsField) (hE : A.scalars.IsExact)

include hS

theorem divideTerms_spec (ha : a.HasCoeffs A.dimension x) (hq : q ≠ 0) :
    ∃ t, A.divideTerms a.terms q = .ok t ∧
      ∀ r, Terms.coeff t r = if r < 2 ^ A.dimension then (q⁻¹ • x) r else 0 := by
  have hn := A.dimension_le
  refine ⟨a.terms.foldl (fun sum s => sum.insert s.1 (s.2 / q)) ∅, ?_, fun r => ?_⟩
  · refine foldlM_eq_ok (fun s _ sum => ?_) ∅
    rw [hS.div _ _ hq]
    rfl
  · rw [Terms.coeff_foldl_insert (Multivector.nodup_terms hn ha.inRange) (· / q),
      Multivector.sum_terms_ite_eq hn ha.inRange r (g := (· / q)) (zero_div q)]
    split
    · next hr => rw [ha.coeff_eq r hr, Pi.smul_apply, smul_eq_mul, div_eq_inv_mul]
    · rfl

include hE

/-- The inverse is the reverse divided by the squared norm. -/
theorem versorInverse_eq (ha : a.HasCoeffs A.dimension x) (hx : IsVersor A x q) :
    ∃ r : Multivector α, r.HasCoeffs A.dimension (gradeSigns reverseSign * x) ∧
      A.versorInverse a = if A.scalars.isZero q then .error .nullVersor
        else do return Terms.compact A.scalars (← A.divideTerms r.terms q) := by
  obtain ⟨r, hr, hreverse, hnorm⟩ := exists_reverse_scalarProduct hS.toIsRing hE ha
  rw [hx.norm_eq] at hnorm
  refine ⟨r, hreverse, ?_⟩
  rw [versorInverse, hr]
  show A.scalarProduct a r >>= _ = _
  rw [hnorm]
  rfl

theorem versorInverse_of_zero (ha : a.HasCoeffs A.dimension x) (hx : IsVersor A x 0) :
    A.versorInverse a = .error .nullVersor := by
  obtain ⟨r, -, hinverse⟩ := versorInverse_eq hS hE ha hx
  rw [hinverse, if_pos hE.isZero_zero]

theorem versorInverse_spec (ha : a.HasCoeffs A.dimension x) (hx : IsVersor A x q) (hq : q ≠ 0) :
    A.Yields (A.versorInverse a) (q⁻¹ • (gradeSigns reverseSign * x)) := by
  obtain ⟨r, hreverse, hinverse⟩ := versorInverse_eq hS hE ha hx
  obtain ⟨t, ht, hcoeff⟩ := divideTerms_spec hS hreverse hq
  refine ⟨Terms.compact A.scalars t, ?_, Multivector.represents_compact hcoeff⟩
  rw [hinverse, hE.isZero_eq_false_iff.mpr hq, ht]
  rfl

/-- **A versor whose norm is not zero has an inverse.** -/
theorem product_versorInverse (ha : a.HasCoeffs A.dimension x) (hx : IsVersor A x q) (hq : q ≠ 0) :
    ∃ b, A.versorInverse a = .ok b ∧
      A.product .geometric a b = .ok (.scalar A.scalars.one) ∧
      A.product .geometric b a = .ok (.scalar A.scalars.one) := by
  have hR := hS.toIsRing
  obtain ⟨b, hb, rb⟩ := versorInverse_spec hS hE ha hx hq
  have hinv := rb.hasCoeffs hE A.dimension_le
  have hone : ∀ e, A.Yields e (q⁻¹ • q • bladeFamily 0) → e = .ok (.scalar A.scalars.one) := by
    intro e he
    rw [smul_smul, inv_mul_cancel₀ hq] at he
    rw [he.eq_scalar hE, hS.one, if_neg (by simpa using hE.isZero_eq_false_iff.mpr one_ne_zero)]
  refine ⟨b, hb, hone _ ?_, hone _ ?_⟩
  · have h := yields_product hR hE .geometric ha hinv
    rwa [convolve_smul_right, hx.mul_reverse] at h
  · have h := yields_product hR hE .geometric hinv ha
    rwa [convolve_smul_left, hx.reverse_mul] at h

/-- **A product of vectors has an inverse unless one of the vectors is null.** Its squared norm is
    the product of the scalar products of the vectors with themselves. If none of these is zero,
    the inverse that is found is one on both sides; if one is zero, none is found. -/
theorem versorInverse_of_vectors {vs : List (Multivector α)}
    (hvs : ∀ v ∈ vs, A.validate v = .ok () ∧ ∀ t ∈ v.terms, grade t.1 = 1) :
    ∃ a squares, vs.foldlM (A.product .geometric) (.scalar A.scalars.one) = .ok a ∧
      vs.mapM (fun v => A.scalarProduct v v) = .ok squares ∧
      A.normSquared a = .ok squares.prod ∧
      ((∀ q ∈ squares, q ≠ 0) → ∃ b, A.versorInverse a = .ok b ∧
        A.product .geometric a b = .ok (.scalar A.scalars.one) ∧
        A.product .geometric b a = .ok (.scalar A.scalars.one)) ∧
      (0 ∈ squares → ∃ e, A.versorInverse a = .error e ∧ e.kind = .singular) := by
  have hR := hS.toIsRing
  obtain ⟨a, squares, x, ha, hsquares, hx, hversor⟩ := foldlM_versor hR hE
    (fun v hv => ⟨validate_eq_ok_iff.mp (hvs v hv).1, (hvs v hv).2⟩) (hasCoeffs_one hR) isVersor_one
  rw [one_mul] at hversor
  refine ⟨a, squares, ha, hsquares, ?_, fun hne => ?_, fun hzero => ?_⟩
  · exact normSquared_eq hR hE hx hversor
  · exact product_versorInverse hS hE hx hversor (List.prod_ne_zero fun h => hne 0 h rfl)
  · rw [List.prod_eq_zero hzero] at hversor
    exact ⟨.nullVersor, versorInverse_of_zero hS hE hx hversor, rfl⟩

end Field

/-- Three vectors with squares of both signs, and two of which the second is null though its
    coefficients are not zero. -/
theorem versorInverse_of_vectors_mixed :
    let A : Algebra Rat := ⟨.mixed, .fractions, .auto⟩
    let u : Multivector Rat := .vector [2, 1, 5]
    let v : Multivector Rat := .ofBlades [(2, 3)]
    let w : Multivector Rat := .vector [0, 2, -1]
    let null : Multivector Rat := .vector [1, -1, 4]
    (∃ a b, [u, v, w].foldlM (A.product .geometric) (.scalar 1) = .ok a ∧
      A.normSquared a = .ok 108 ∧ A.versorInverse a = .ok b ∧
      A.product .geometric a b = .ok (.scalar 1) ∧ A.product .geometric b a = .ok (.scalar 1)) ∧
    ∃ a e, [u, null].foldlM (A.product .geometric) (.scalar 1) = .ok a ∧
      A.versorInverse a = .error e ∧ e.kind = .singular := by
  intro A u v w null
  have hvs : ∀ z ∈ [u, v, w], A.validate z = .ok () ∧ ∀ t ∈ z.terms, grade t.1 = 1 := by
    simp only [List.forall_mem_cons, List.not_mem_nil, false_implies, implies_true, and_true]
    exact ⟨⟨by cbv, by decide +kernel⟩, ⟨by cbv, by decide +kernel⟩, by cbv, by decide +kernel⟩
  have hws : ∀ z ∈ [u, null], A.validate z = .ok () ∧ ∀ t ∈ z.terms, grade t.1 = 1 := by
    simp only [List.forall_mem_cons, List.not_mem_nil, false_implies, implies_true, and_true]
    exact ⟨⟨by cbv, by decide +kernel⟩, by cbv, by decide +kernel⟩
  obtain ⟨a, squares, ha, hsquares, hnorm, hinverse, -⟩ := versorInverse_of_vectors (A := A)
    Scalars.isField_fractions Scalars.isExact_fractions hvs
  obtain ⟨a', squares', ha', hsquares', -, -, hsingular⟩ := versorInverse_of_vectors (A := A)
    Scalars.isField_fractions Scalars.isExact_fractions hws
  have hvalues : [u, v, w].mapM (fun v => A.scalarProduct v v) = .ok [3, -9, -4] := by cbv
  have hvalues' : [u, null].mapM (fun v => A.scalarProduct v v) = .ok [3, 0] := by cbv
  obtain rfl := Except.ok.inj (hsquares.symm.trans hvalues)
  obtain rfl := Except.ok.inj (hsquares'.symm.trans hvalues')
  obtain ⟨b, hb, hab, hba⟩ := hinverse (by simp)
  obtain ⟨e, he, hkind⟩ := hsingular (by simp)
  refine ⟨⟨a, b, ha, ?_, hb, hab, hba⟩, a', e, ha', he, hkind⟩
  rw [hnorm]
  norm_num

end Algebra

end GeometricAlgebra
