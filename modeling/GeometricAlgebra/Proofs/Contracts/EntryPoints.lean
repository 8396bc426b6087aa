import GeometricAlgebra.Frame
import GeometricAlgebra.Interchange.Document
import GeometricAlgebra.Proofs.Contracts.Operations

set_option autoImplicit false

/-! # No entry point breaks a contract

A multivector from outside may be nothing but numbers: grades that no algebra has, ranks that no
grade has, blades of any size. It comes in through a range check, an operation of an algebra, a map,
a frame or a document. All of these are guarded here, and **whatever multivectors they are given,
they fail with an error or give a result, and break no contract** (`Guarded.entryPoints_eq`): the
guarded entry point is the plain one.

Of a map it is asked that the blades of its images are 64-bit words, as those of every map that was
built are (`Outermorphism.Built.words`). -/

namespace GeometricAlgebra

open Blade

variable {α β : Type}

/-- The blades of the images are 64-bit words. -/
def Outermorphism.Words (f : Outermorphism α) : Prop :=
  ∀ image ∈ f.images, image.Within maxDimension

theorem Outermorphism.Built.words {f : Outermorphism α} (h : f.Built) : f.Words :=
  fun image himage b hb => (h.wellFormed.vectors image himage b hb).1.trans_le
    (Nat.pow_le_pow_right (by decide) h.wellFormed.target_le)

namespace Guarded

/-! ## Maps -/

def validateImage (target i : Nat) (image : Multivector α) : Guarded Unit := do
  validate target image
  match image.grades.find? (· != 1) with
  | some g => throw (.imageGrade i g)
  | none => return ()

def ofImages (domain target : Nat) (images : List (Multivector α)) :
    Guarded (Outermorphism α) := do
  ofExcept (validateDimension domain)
  ofExcept (validateDimension target)
  if images.length ≠ domain then throw (.imageCount domain images.length)
  else
    images.zipIdx.forM fun (image : Multivector α × Nat) => validateImage target image.2 image.1
    let collected ← (images.mapM toTerms : Option (List (Terms α)))
    return ⟨target, collected⟩

theorem validateImage_eq (target i : Nat) (image : Multivector α) :
    validateImage target i image = ofExcept (Outermorphism.validateImage target i image) :=
  bind_eq (validate_eq target image) fun _ _ => by
    cases image.grades.find? (· != 1) <;> rfl

/-- Images are turned into terms when all of them have passed the range check. -/
theorem ofImages_eq (domain target : Nat) (images : List (Multivector α)) :
    ofImages domain target images = ofExcept (Outermorphism.ofImages domain target images) := by
  refine bind_eq rfl fun _ _ => bind_eq rfl fun _ _ => ?_
  by_cases hlength : images.length ≠ domain
  · rw [if_pos hlength, if_pos hlength]
    rfl
  · rw [if_neg hlength, if_neg hlength]
    refine bind_eq (forM_eq fun image _ => validateImage_eq target image.2 image.1) fun _ hall => ?_
    have hterms : images.mapM toTerms = some (images.map Multivector.toTerms) := by
      refine mapM_eq fun image himage => ?_
      obtain ⟨i, hi⟩ := List.mem_iff_getElem?.mp himage
      have hvalid := (forM_eq_ok_iff _ _).mp hall (image, i) (List.mem_zipIdx_iff_getElem?.mpr hi)
      obtain ⟨htarget, hrange, -⟩ := Outermorphism.validateImage_eq_ok_iff.mp hvalid
      exact toTerms_eq htarget hrange
    rw [lift_bind hterms]
    rfl

section Maps

variable (S : Scalars α) (f : Outermorphism α)

def addImage (sum : Terms α) (term : Nat × α) : Guarded (Terms α) :=
  if grade term.1 ≠ 1 then throw (.notAVector (grade term.1))
  else do
    let image ← (entry f.images term.1.log2 : Option (Terms α))
    return Terms.addScaled S sum image.toList term.2

def mapVector (v : Multivector α) : Guarded (Multivector α) := do
  validate f.domain v
  let first ← terms v
  let sum ← first.foldlM (addImage S f) ∅
  compact S sum

def map (mv : Multivector α) : Guarded (Multivector α) := do
  validate f.domain mv
  let (sum, _) ← sumOfImages S f.images mv
  compact S sum

def mapKVector (mv : Multivector α) (k : Nat) : Guarded (Multivector α) :=
  match mv.grades.find? (· != k) with
  | some g => throw (.otherGrade k g)
  | none => do
    validate f.domain mv
    let (sum, _) ← sumOfImages S f.images mv
    ofOneGrade S sum k

variable {S f}

/-- The vector of a blade of the domain has an image. -/
theorem addImage_eq {term : Nat × α} (hterm : term.1 < 2 ^ f.domain) (sum : Terms α) :
    addImage S f sum term = ofExcept (f.addImage S sum term) := by
  rw [addImage, Outermorphism.addImage]
  by_cases hgrade : grade term.1 ≠ 1
  · rw [if_pos hgrade, if_pos hgrade]
    rfl
  · have hne : term.1 ≠ 0 := by
      intro hzero
      rw [hzero, grade_eq_zero_iff.mpr rfl] at hgrade
      exact hgrade (by decide)
    rw [if_neg hgrade, if_neg hgrade, lift_bind (entry_eq ((Nat.log2_lt hne).mpr hterm))]
    rfl

theorem within_addImage (hf : f.Words) {sum next : Terms α} {term : Nat × α}
    (hsum : sum.Within maxDimension) (h : f.addImage S sum term = .ok next) :
    next.Within maxDimension := by
  rw [Outermorphism.addImage] at h
  split at h
  · cases h
  · cases h
    exact hsum.foldl fun s hs => ⟨Terms.touches_add S s.1 _,
      Terms.getD_of_forall Terms.within_empty hf term.1.log2 s.1 (Terms.mem_of_mem_toList hs)⟩

theorem mapVector_eq (hf : f.Words) (v : Multivector α) :
    mapVector S f v = ofExcept (f.mapVector S v) := by
  refine bind_eq (validate_eq f.domain v) fun _ hv => ?_
  obtain ⟨hn, hrange⟩ := (Multivector.validate_eq_ok_iff _ v).mp hv
  rw [lift_bind (terms_eq hn hrange)]
  refine bind_eq (foldlM_eq (fun t ht => addImage_eq ?_) ∅) fun sum hsum => lift_eq ?_
  · exact Multivector.lt_of_mem_terms hn hrange ht
  · have hwithin : sum.Within maxDimension :=
      of_foldlM_eq_ok (fun _ _ _ _ hbefore hnext => within_addImage hf hbefore hnext)
        Terms.within_empty hsum
    exact compact_eq hwithin S

theorem map_eq (hf : f.Words) (mv : Multivector α) : map S f mv = ofExcept (f.map S mv) := by
  refine bind_eq (validate_eq f.domain mv) fun _ hmv => ?_
  obtain ⟨hn, hrange⟩ := (Multivector.validate_eq_ok_iff _ mv).mp hmv
  rw [lift_bind (sumOfImages_eq S hn hrange)]
  exact lift_eq (compact_eq (Algebra.within_sumOfImages hf mv) S)

theorem mapKVector_eq (hf : f.Words) (mv : Multivector α) (k : Nat) :
    mapKVector S f mv k = ofExcept (f.mapKVector S mv k) := by
  rw [mapKVector, Outermorphism.mapKVector]
  cases mv.grades.find? (· != k) with
  | some g => rfl
  | none =>
      refine bind_eq (validate_eq f.domain mv) fun _ hmv => ?_
      obtain ⟨hn, hrange⟩ := (Multivector.validate_eq_ok_iff _ mv).mp hmv
      rw [lift_bind (sumOfImages_eq S hn hrange)]
      exact ofOneGrade_eq (Algebra.within_sumOfImages hf mv) S k

end Maps

/-! ## Frames and documents -/

def frameProduct (F : Frame α) (k : Product) (a b : Multivector α) : Guarded (Multivector α) := do
  let a ← map F.algebra.scalars F.toOrthonormal a
  let b ← map F.algebra.scalars F.toOrthonormal b
  let m ← product F.algebra k a b
  map F.algebra.scalars F.ofOrthonormal m

theorem frameProduct_eq {F : Frame α} (hto : F.toOrthonormal.Words) (hof : F.ofOrthonormal.Words)
    (k : Product) (a b : Multivector α) :
    frameProduct F k a b = ofExcept (F.product k a b) :=
  bind_eq (map_eq hto a) fun a _ => bind_eq (map_eq hto b) fun b _ =>
    bind_eq (product_eq k a b) fun m _ => map_eq hof m

def document (sig : Signature) (mv : Multivector α) : Guarded (Document α) := do
  validate sig.dimension mv
  let entries ← terms mv
  return ⟨Document.currentVersion, sig, entries.map fun t => ⟨t.1, some (Blade.name t.1), t.2⟩⟩

theorem document_eq (sig : Signature) (mv : Multivector α) :
    document sig mv = ofExcept (Document.ofMultivector sig mv) :=
  bind_eq (validate_eq sig.dimension mv) fun _ hmv => by
    obtain ⟨hn, hrange⟩ := (Multivector.validate_eq_ok_iff _ mv).mp hmv
    rw [lift_bind (terms_eq hn hrange)]
    rfl

end Guarded

/-! ## Operations -/

/-- An operation of an algebra with its operands, by the type of its result. -/
inductive Algebra.Operation (α : Type) : Type → Type where
  | validate (a : Multivector α) : Operation α Unit
  | product (k : Product) (a b : Multivector α) : Operation α (Multivector α)
  | scalarProduct (a b : Multivector α) : Operation α α
  | add (a b : Multivector α) : Operation α (Multivector α)
  | subtract (a b : Multivector α) : Operation α (Multivector α)
  | scale (a : Multivector α) (factor : α) : Operation α (Multivector α)
  | negate (a : Multivector α) : Operation α (Multivector α)
  | areEqual (a b : Multivector α) : Operation α Bool
  | gradePart (a : Multivector α) (grades : List Nat) : Operation α (Multivector α)
  | reverse (a : Multivector α) : Operation α (Multivector α)
  | gradeInvolution (a : Multivector α) : Operation α (Multivector α)
  | cliffordConjugate (a : Multivector α) : Operation α (Multivector α)
  | normSquared (a : Multivector α) : Operation α α
  | scalarPart (a : Multivector α) : Operation α α
  | pseudoscalar : Operation α (Multivector α)
  | pseudoscalarInverse : Operation α (Multivector α)
  | dual (a : Multivector α) : Operation α (Multivector α)
  | undual (a : Multivector α) : Operation α (Multivector α)
  | versorInverse (a : Multivector α) : Operation α (Multivector α)
  | map (f : Outermorphism α) (words : f.Words) (a : Multivector α) : Operation α (Multivector α)

def Algebra.Operation.eval (A : Algebra α) : Operation α β → Except Error β
  | validate a => A.validate a
  | product k a b => A.product k a b
  | scalarProduct a b => A.scalarProduct a b
  | add a b => A.add a b
  | subtract a b => A.subtract a b
  | scale a factor => A.scale a factor
  | negate a => A.negate a
  | areEqual a b => A.areEqual a b
  | gradePart a grades => A.gradePart a grades
  | reverse a => A.reverse a
  | gradeInvolution a => A.gradeInvolution a
  | cliffordConjugate a => A.cliffordConjugate a
  | normSquared a => A.normSquared a
  | scalarPart a => .ok (A.scalarPart a)
  | pseudoscalar => .ok A.pseudoscalar
  | pseudoscalarInverse => A.pseudoscalarInverse
  | dual a => A.dual a
  | undual a => A.undual a
  | versorInverse a => A.versorInverse a
  | map f _ a => A.map f a

namespace Guarded

def eval (A : Algebra α) : Algebra.Operation α β → Guarded β
  | .validate a => validate A.dimension a
  | .product k a b => product A k a b
  | .scalarProduct a b => scalarProduct A a b
  | .add a b => add A a b
  | .subtract a b => subtract A a b
  | .scale a factor => scale A a factor
  | .negate a => negate A a
  | .areEqual a b => areEqual A a b
  | .gradePart a grades => gradePart A a grades
  | .reverse a => mapGradeSign A Grade.reverseSign a
  | .gradeInvolution a => mapGradeSign A Grade.involutionSign a
  | .cliffordConjugate a => mapGradeSign A Grade.conjugateSign a
  | .normSquared a => normSquared A a
  | .scalarPart a => liftM (scalarPart A a)
  | .pseudoscalar => liftM (pseudoscalar A)
  | .pseudoscalarInverse => pseudoscalarInverse A
  | .dual a => dual A a
  | .undual a => undual A a
  | .versorInverse a => versorInverse A a
  | .map f _ a =>
    if f.target ≠ A.dimension then throw (.dimensionMismatch A.dimension f.target)
    else map A.scalars f a

theorem eval_eq (A : Algebra α) (op : Algebra.Operation α β) :
    eval A op = ofExcept (op.eval A) := by
  cases op with
  | validate a => exact validate_eq A.dimension a
  | product k a b => exact product_eq k a b
  | scalarProduct a b => exact scalarProduct_eq a b
  | add a b => exact add_eq a b
  | subtract a b => exact subtract_eq a b
  | scale a factor => exact scale_eq a factor
  | negate a => exact negate_eq a
  | areEqual a b => exact areEqual_eq a b
  | gradePart a grades => exact gradePart_eq a grades
  | reverse a => exact mapGradeSign_eq Grade.reverseSign a
  | gradeInvolution a => exact mapGradeSign_eq Grade.involutionSign a
  | cliffordConjugate a => exact mapGradeSign_eq Grade.conjugateSign a
  | normSquared a => exact normSquared_eq a
  | scalarPart a => exact lift_eq (scalarPart_eq a)
  | pseudoscalar => exact lift_eq (pseudoscalar_eq A)
  | pseudoscalarInverse => exact pseudoscalarInverse_eq A
  | dual a => exact dual_eq a
  | undual a => exact undual_eq a
  | versorInverse a => exact versorInverse_eq a
  | map f hf a =>
      rw [eval, Algebra.Operation.eval, Algebra.map]
      split
      · rfl
      · exact map_eq hf a

/-! ## Entry points -/

/-- **No entry point breaks a contract, whatever multivectors it is given.** The range check, the
    checked constructors, the operations of an algebra, the making of a map from images and its use,
    the product over a frame and the making of a document: each of them, with a guard on every call
    that has a contract, is the plain one, which fails with an error or gives a result. -/
theorem entryPoints_eq :
    (∀ (n : Nat) (mv : Multivector α), validate n mv = ofExcept (mv.validate n)) ∧
    (∀ (n : Nat) (l : List (Nat × α)),
      checked n (.ofBlades l) = ofExcept ((Multivector.ofBlades l).checked n)) ∧
    (∀ (n g : Nat) (l : List (Nat × α)),
      checked n (.ofRanks g l) = ofExcept ((Multivector.ofRanks g l).checked n)) ∧
    (∀ (A : Algebra α) (β : Type) (op : Algebra.Operation α β),
      eval A op = ofExcept (op.eval A)) ∧
    (∀ (domain target : Nat) (images : List (Multivector α)),
      ofImages domain target images = ofExcept (Outermorphism.ofImages domain target images)) ∧
    (∀ (S : Scalars α) (f : Outermorphism α), f.Words → ∀ mv : Multivector α,
      map S f mv = ofExcept (f.map S mv) ∧
      mapVector S f mv = ofExcept (f.mapVector S mv) ∧
      ∀ k, mapKVector S f mv k = ofExcept (f.mapKVector S mv k)) ∧
    (∀ F : Frame α, F.toOrthonormal.Words → F.ofOrthonormal.Words → ∀ k a b,
      frameProduct F k a b = ofExcept (F.product k a b)) ∧
    ∀ (sig : Signature) (mv : Multivector α),
      document sig mv = ofExcept (Document.ofMultivector sig mv) :=
  ⟨validate_eq, fun n l => checked_eq n (.ofBlades l), fun n g l => checked_eq n (.ofRanks g l),
    fun A _ op => eval_eq A op, ofImages_eq,
    fun _ _ hf mv => ⟨map_eq hf mv, mapVector_eq hf mv, mapKVector_eq hf mv⟩,
    fun _ hto hof => frameProduct_eq hto hof, document_eq⟩

/-- Ranks that grade 1 and grade 70 do not have, and a vector. -/
theorem entryPoints_eq_unreachable :
    let unreachable : Multivector Int :=
      .graded (Multivector.insertGraded (Multivector.insertGraded ∅ 70 0 1) 1 99 2)
    let f := Outermorphism.sample
    let F : Frame Int := ⟨⟨.mixed, .integers, .auto⟩, f, f⟩
    (f.Words ∧ F.toOrthonormal.Words ∧ F.ofOrthonormal.Words) ∧
      map .integers f unreachable = ofExcept (.error (.unreachableIndex 1 99)) ∧
      mapVector .integers f (.vector [1, 1, 1])
        = ofExcept (.ok (.ofRanks 1 [(0, 3), (1, 4), (2, -1)])) ∧
      frameProduct F .geometric (.ofBlade 3 2) (.kvector 70 ((∅ : Terms Int).insert 0 1))
        = ofExcept (.error (.unreachableIndex 70 0)) := by
  intro unreachable f F
  have hf : f.Words := Outermorphism.built_sample.words
  obtain ⟨-, -, -, -, -, hmaps, hframe, -⟩ := entryPoints_eq (α := Int)
  refine ⟨⟨hf, hf, hf⟩, ?_, ?_, ?_⟩
  · exact (hmaps .integers f hf unreachable).1.trans (congrArg ofExcept (by cbv))
  · exact (hmaps .integers f hf (.vector [1, 1, 1])).2.1.trans (congrArg ofExcept (by cbv))
  · exact (hframe F hf hf .geometric _ _).trans (congrArg ofExcept (by cbv))

end Guarded

end GeometricAlgebra
