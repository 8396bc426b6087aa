import GeometricAlgebra.Proofs.Algebra.Families

set_option autoImplicit false

/-! # What a computation in an algebra yields

A chain of operations succeeds with coefficients that follow from those of its operands: `Yields`.
Each operation has its rule, and `Yields.bind` chains them; as the form of a result depends on its
coefficients alone, two chains with the same coefficients have the same result (`Yields.eq_ok`). So
a law of multivectors comes down to a law of families. -/

namespace GeometricAlgebra

namespace Algebra

variable {α : Type} [CommRing α] {A : Algebra α}

/-- The computation succeeds with these coefficients, in the form that operations give to sums. -/
def Yields (A : Algebra α) (e : Except Error (Multivector α)) (x : Nat → α) : Prop :=
  ∃ m, e = .ok m ∧ m.Represents A.scalars A.dimension x

variable {e e' : Except Error (Multivector α)} {a b : Multivector α} {x y : Nat → α}

theorem Yields.congr (h : A.Yields e x) (hxy : ∀ r < 2 ^ A.dimension, x r = y r) :
    A.Yields e y := by
  obtain ⟨m, hm, rm⟩ := h
  exact ⟨m, hm, rm.congr hxy⟩

/-- The coefficients determine the result. -/
theorem Yields.eq_ok (hE : A.scalars.IsExact) (h : A.Yields e x) (h' : A.Yields e' x) :
    ∃ m, e = .ok m ∧ e' = .ok m := by
  obtain ⟨m, hm, rm⟩ := h
  obtain ⟨m', hm', rm'⟩ := h'
  obtain rfl := rm.unique hE.isZero_zero rm'
  exact ⟨m, hm, hm'⟩

/-- The next operation may rely on the coefficients of its operand. -/
theorem Yields.bind (hE : A.scalars.IsExact) {f : Multivector α → Except Error (Multivector α)}
    (h : A.Yields e x) (hf : ∀ m, m.HasCoeffs A.dimension x → A.Yields (f m) y) :
    A.Yields (e >>= f) y := by
  obtain ⟨m, rfl, rm⟩ := h
  exact hf m (rm.hasCoeffs hE A.dimension_le)

/-- A result with the coefficients of a multivector has those of its terms that are not zero. -/
theorem Yields.mem_terms (hE : A.scalars.IsExact) (ha : a.InRange A.dimension)
    (h : A.Yields e a.coeff) :
    ∃ m, e = .ok m ∧ (m.terms.map Prod.fst).Nodup ∧
      ∀ b v, (b, v) ∈ m.terms ↔ (b, v) ∈ a.terms ∧ v ≠ 0 := by
  have hn := A.dimension_le
  obtain ⟨m, hm, rm⟩ := h
  exact ⟨m, hm, Multivector.nodup_terms hn (rm.hasCoeffs hE hn).inRange, fun b v =>
    rm.mem_terms_iff_mem hE hn ha⟩

/-- A multiple of the scalar blade is a scalar, or has no term if it is zero. -/
theorem Yields.eq_scalar (hE : A.scalars.IsExact) {v : α} (h : A.Yields e (v • bladeFamily 0)) :
    e = .ok (if A.scalars.isZero v then .zero else .scalar v) := by
  obtain ⟨m, rfl, rm⟩ := h
  congr 1
  cases hv : A.scalars.isZero v with
  | true =>
      rw [(hE v).mp hv, zero_smul] at rm
      exact rm.unique hE.isZero_zero Multivector.represents_zero
  | false => exact rm.unique hE.isZero_zero (Multivector.represents_scalar hv)

section Operations

variable (hS : A.scalars.IsRing) (hE : A.scalars.IsExact)

include hS hE

theorem yields_product (k : Product) (ha : a.HasCoeffs A.dimension x)
    (hb : b.HasCoeffs A.dimension y) :
    A.Yields (A.product k a b) (convolve A.dimension (A.signs k) x y) :=
  product_spec hS hE.isZero_zero k ha hb

theorem Yields.product (k : Product) (h : A.Yields e x) (h' : A.Yields e' y) :
    A.Yields (do A.product k (← e) (← e')) (convolve A.dimension (A.signs k) x y) :=
  h.bind hE fun _ ha => h'.bind hE fun _ hb => yields_product hS hE k ha hb

theorem Yields.add (h : A.Yields e x) (h' : A.Yields e' y) :
    A.Yields (do A.add (← e) (← e')) (x + y) :=
  h.bind hE fun _ ha => h'.bind hE fun _ hb => add_spec hS ha hb

theorem Yields.subtract (h : A.Yields e x) (h' : A.Yields e' y) :
    A.Yields (do A.subtract (← e) (← e')) (x - y) :=
  h.bind hE fun _ ha => h'.bind hE fun _ hb => subtract_spec hS ha hb

theorem Yields.scale (h : A.Yields e x) (factor : α) :
    A.Yields (do A.scale (← e) factor) (factor • x) :=
  h.bind hE fun _ ha => scale_spec hS ha factor

end Operations

end Algebra

end GeometricAlgebra
