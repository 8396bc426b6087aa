import GeometricAlgebra.Proofs.Algebra.Canonical
import GeometricAlgebra.Proofs.Blade.Positions
import GeometricAlgebra.Proofs.Contracts.Walks

set_option autoImplicit false

/-! # Contracts in the operations of an algebra

Every operation asks first whether its operands belong to the algebra, and what comes after that, in
whichever module, relies on it. The operations are guarded here down to the last call. Nothing is
asked of their operands, and they turn out to be the plain ones: after the range check there are
only ranks that their grade has, and sums are of blades of the algebra.

Most operations make a sum of the terms of one or two operands (`collect`, `collect₂`). -/

namespace GeometricAlgebra

open Blade

variable {α : Type}

namespace Guarded

/-! ## Sums over the terms of operands -/

/-- Validates an operand and makes a sum of its terms. -/
def collect (A : Algebra α) (a : Multivector α) (f : List (Nat × α) → Terms α) :
    Guarded (Multivector α) := do
  validate A.dimension a
  let first ← terms a
  compact A.scalars (f first)

/-- Validates two operands and makes a sum of their terms. -/
def collect₂ (A : Algebra α) (a b : Multivector α)
    (f : List (Nat × α) → List (Nat × α) → Terms α) : Guarded (Multivector α) := do
  validate A.dimension a
  validate A.dimension b
  let first ← terms a
  let second ← terms b
  compact A.scalars (f first second)

section Collect

variable {A : Algebra α} {a b : Multivector α}

theorem terms_eq_of_validate (h : A.validate a = .ok ()) : terms a = some a.terms :=
  terms_eq A.dimension_le (Algebra.validate_eq_ok_iff.mp h)

/-- A sum of blades of the algebra is given a form. -/
theorem lift_compact_eq {t : Terms α} (ht : t.Within A.dimension) :
    (liftM (compact A.scalars t) : Guarded (Multivector α))
      = ofExcept (.ok (Terms.compact A.scalars t)) :=
  lift_eq (compact_eq (fun b hb => (ht b hb).trans_le
    (Nat.pow_le_pow_right (by decide) A.dimension_le)) A.scalars)

theorem collect_eq {f : List (Nat × α) → Terms α}
    (hf : A.validate a = .ok () → (f a.terms).Within A.dimension) :
    collect A a f = ofExcept (do
      A.validate a
      return Terms.compact A.scalars (f a.terms)) :=
  bind_eq (validate_eq A.dimension a) fun _ ha => by
    rw [lift_bind (terms_eq_of_validate ha)]
    exact lift_compact_eq (hf ha)

theorem collect₂_eq {f : List (Nat × α) → List (Nat × α) → Terms α}
    (hf : A.validate a = .ok () → A.validate b = .ok () → (f a.terms b.terms).Within A.dimension) :
    collect₂ A a b f = ofExcept (do
      A.validate a
      A.validate b
      return Terms.compact A.scalars (f a.terms b.terms)) :=
  bind_eq (validate_eq A.dimension a) fun _ ha => bind_eq (validate_eq A.dimension b) fun _ hb => by
    rw [lift_bind (terms_eq_of_validate ha), lift_bind (terms_eq_of_validate hb)]
    exact lift_compact_eq (hf ha hb)

end Collect

/-! ## Operations of an algebra -/

section Operations

variable (A : Algebra α)

def productOfPairs (k : Product) (a b : Multivector α) : Option (Terms α) := do
  let first ← terms a
  let second ← terms b
  return first.foldl (fun sum s => second.foldl (fun sum t =>
    let sign := A.productSign k s.1 t.1
    if sign = 0 then sum else A.addProduct sum s t sign) sum) ∅

def productOfTree (k : Product) (a b : Multivector α) : Option (Terms α) := do
  let (sum, _) ← foldPairs k A.signature a b (fun sum pair =>
    A.addProduct sum pair.first pair.second pair.sign) ∅
  return sum

def product (k : Product) (a b : Multivector α) : Guarded (Multivector α) := do
  validate A.dimension a
  validate A.dimension b
  let sum ← (if A.strategy.usesTree (a.size * b.size) then productOfTree A k a b
    else productOfPairs A k a b : Option (Terms α))
  compact A.scalars sum

def scalarPart (a : Multivector α) : Option α := do return (← get? a 0).getD A.scalars.zero

def scalarProduct (a b : Multivector α) : Guarded α := do
  let m ← product A .scalar a b
  liftM (scalarPart A m)

def add (a b : Multivector α) : Guarded (Multivector α) :=
  collect₂ A a b fun first second =>
    second.foldl (fun sum t => Terms.add A.scalars sum t.1 t.2) (.ofList first)

def subtract (a b : Multivector α) : Guarded (Multivector α) :=
  collect₂ A a b fun first second =>
    second.foldl (fun sum t => Terms.subtract A.scalars sum t.1 t.2) (.ofList first)

def scale (a : Multivector α) (factor : α) : Guarded (Multivector α) :=
  collect A a fun first => Terms.addScaled A.scalars ∅ first factor

def negate (a : Multivector α) : Guarded (Multivector α) :=
  collect A a fun first => first.foldl (fun sum t => Terms.subtract A.scalars sum t.1 t.2) ∅

def areEqual (a b : Multivector α) : Guarded Bool := do return (← subtract A a b).isEmpty

def gradePart (a : Multivector α) (grades : List Nat) : Guarded (Multivector α) := do
  validate A.dimension a
  let (found, _) ← termsOfGrades A.dimension grades a
  compact A.scalars (.ofList found)

def mapGradeSign (signOf : Nat → Int) (a : Multivector α) : Guarded (Multivector α) :=
  collect A a fun first => first.foldl (fun sum t =>
    Terms.addSigned A.scalars sum t.1 (signOf (grade t.1)) t.2) ∅

def normSquared (a : Multivector α) : Guarded α := do
  scalarProduct A a (← mapGradeSign A Grade.reverseSign a)

def pseudoscalar : Option (Multivector α) := do ofBlade (← firstVectors A.dimension) A.scalars.one

def pseudoscalarInverse : Guarded (Multivector α) :=
  if A.signature.isDegenerate then throw (.nullPseudoscalar A.signature.name)
  else do
    let b ← firstVectors A.dimension
    ofBlade b (A.scalars.ofInt (Product.geometricSign A.signature b b))

def dual (a : Multivector α) : Guarded (Multivector α) := do
  let inverse ← pseudoscalarInverse A
  product A .left a inverse

def undual (a : Multivector α) : Guarded (Multivector α) := do
  let unit ← pseudoscalar A
  product A .left a unit

def versorInverse (a : Multivector α) : Guarded (Multivector α) := do
  let reversed ← mapGradeSign A Grade.reverseSign a
  let norm ← scalarProduct A a reversed
  if A.scalars.isZero norm then throw .nullVersor
  else
    let first ← terms reversed
    let sum ← ofExcept (A.divideTerms first norm)
    compact A.scalars sum

variable {A : Algebra α} {a b : Multivector α}

theorem productOfPairs_eq (k : Product) (ha : A.validate a = .ok ()) (hb : A.validate b = .ok ()) :
    productOfPairs A k a b = some (A.productOfPairs k a b) := by
  rw [productOfPairs, terms_eq_of_validate ha, terms_eq_of_validate hb]
  rfl

theorem productOfTree_eq (k : Product) (ha : A.validate a = .ok ()) (hb : A.validate b = .ok ()) :
    productOfTree A k a b = some (A.productOfTree k a b) := by
  rw [productOfTree, foldPairs_eq k A.signature (Algebra.validate_eq_ok_iff.mp ha)
    (Algebra.validate_eq_ok_iff.mp hb)]
  rfl

theorem product_eq (k : Product) (a b : Multivector α) :
    product A k a b = ofExcept (A.product k a b) := by
  refine bind_eq (validate_eq A.dimension a) fun _ ha => ?_
  refine bind_eq (validate_eq A.dimension b) fun _ hb => ?_
  obtain ⟨htree, hpairs⟩ := Algebra.within_product k ha hb
  split
  · rw [lift_bind (productOfTree_eq k ha hb)]
    exact lift_compact_eq htree
  · rw [lift_bind (productOfPairs_eq k ha hb)]
    exact lift_compact_eq hpairs

/-- The scalar blade is ranked, whatever its multivector is. -/
theorem scalarPart_eq (a : Multivector α) : scalarPart A a = some (A.scalarPart a) := by
  rw [scalarPart, get?_eq a (Nat.two_pow_pos maxDimension)]
  rfl

theorem scalarProduct_eq (a b : Multivector α) :
    scalarProduct A a b = ofExcept (A.scalarProduct a b) :=
  bind_eq (product_eq .scalar a b) fun m _ => lift_eq (scalarPart_eq m)

theorem add_eq (a b : Multivector α) : add A a b = ofExcept (A.add a b) :=
  collect₂_eq fun ha hb => Algebra.within_foldl_terms hb
    (fun s => Terms.touches_add A.scalars s.1 s.2) (Algebra.within_toTerms ha)

theorem subtract_eq (a b : Multivector α) : subtract A a b = ofExcept (A.subtract a b) :=
  collect₂_eq fun ha hb => Algebra.within_foldl_terms hb
    (fun s => Terms.touches_subtract A.scalars s.1 s.2) (Algebra.within_toTerms ha)

theorem scale_eq (a : Multivector α) (factor : α) :
    scale A a factor = ofExcept (A.scale a factor) :=
  collect_eq fun ha => Algebra.within_foldl_terms ha
    (fun s => Terms.touches_add A.scalars s.1 _) Terms.within_empty

theorem negate_eq (a : Multivector α) : negate A a = ofExcept (A.negate a) :=
  collect_eq fun ha => Algebra.within_foldl_terms ha
    (fun s => Terms.touches_subtract A.scalars s.1 s.2) Terms.within_empty

theorem areEqual_eq (a b : Multivector α) : areEqual A a b = ofExcept (A.areEqual a b) :=
  bind_eq (subtract_eq a b) fun _ _ => rfl

theorem gradePart_eq (a : Multivector α) (grades : List Nat) :
    gradePart A a grades = ofExcept (A.gradePart a grades) := by
  refine bind_eq (validate_eq A.dimension a) fun _ ha => ?_
  have hrange := Algebra.validate_eq_ok_iff.mp ha
  rw [lift_bind (termsOfGrades_eq A.dimension_le grades hrange)]
  refine lift_compact_eq (Terms.within_ofList fun s hs => Algebra.lt_of_mem_terms ha ?_)
  exact (BladeTree.mem_rootTerms A.dimension_le hrange).mp
    (BladeTree.mem_rootTerms_of_mem_termsOfGrades s hs)

theorem mapGradeSign_eq (signOf : Nat → Int) (a : Multivector α) :
    mapGradeSign A signOf a = ofExcept (A.mapGradeSign signOf a) :=
  collect_eq fun ha => Algebra.within_foldl_terms ha
    (fun s => Terms.touches_addSigned A.scalars s.1 _ s.2) Terms.within_empty

theorem normSquared_eq (a : Multivector α) : normSquared A a = ofExcept (A.normSquared a) :=
  bind_eq (mapGradeSign_eq Grade.reverseSign a) fun reversed _ => scalarProduct_eq a reversed

theorem pseudoscalar_lt (A : Algebra α) : Blade.firstVectors A.dimension < 2 ^ maxDimension :=
  (firstVectors_lt A.dimension_le).trans_le (Nat.pow_le_pow_right (by decide) A.dimension_le)

theorem pseudoscalar_eq (A : Algebra α) : pseudoscalar A = some A.pseudoscalar := by
  rw [pseudoscalar, firstVectors_eq]
  exact ofBlade_eq (pseudoscalar_lt A) A.scalars.one

theorem pseudoscalarInverse_eq (A : Algebra α) :
    pseudoscalarInverse A = ofExcept A.pseudoscalarInverse := by
  rw [pseudoscalarInverse, Algebra.pseudoscalarInverse]
  split
  · rfl
  · rw [lift_bind (firstVectors_eq A.dimension)]
    exact lift_eq (ofBlade_eq (pseudoscalar_lt A) _)

theorem dual_eq (a : Multivector α) : dual A a = ofExcept (A.dual a) :=
  bind_eq (pseudoscalarInverse_eq A) fun inverse _ => product_eq .left a inverse

theorem undual_eq (a : Multivector α) : undual A a = ofExcept (A.undual a) := by
  rw [undual, lift_bind (pseudoscalar_eq A)]
  exact product_eq .left a A.pseudoscalar

/-- The reverse has been through the range check, so its terms can be asked for. -/
theorem versorInverse_eq (a : Multivector α) :
    versorInverse A a = ofExcept (A.versorInverse a) := by
  refine bind_eq (mapGradeSign_eq Grade.reverseSign a) fun reversed hreversed => ?_
  refine bind_eq (scalarProduct_eq a reversed) fun norm _ => ?_
  split
  · rfl
  · have hvalid := (Algebra.canonical_of_mapGradeSign hreversed).valid
    rw [lift_bind (terms_eq_of_validate hvalid)]
    exact bind_eq rfl fun sum hsum =>
      lift_compact_eq (Algebra.within_divideTerms (fun _ => Algebra.lt_of_mem_terms hvalid) hsum)

end Operations

end Guarded

end GeometricAlgebra
