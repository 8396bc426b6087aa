import GeometricAlgebra.Proofs.Algebra.Canonical
import GeometricAlgebra.Proofs.Multivector.Lookup

set_option autoImplicit false

/-! # Maps keep grades

The images of the basis vectors are vectors of the target, however a map has been built. So the
running product of the walk over images has, at every node, as many vectors as have been taken on
the way there (`homogeneous_running`), and a leaf adds blades of the grade of its own. This needs no
law of the arithmetic: an update touches the blade it is given, whatever it makes of the
coefficient.

The image of terms of one grade can therefore be given the form of that grade, and never fails to be
(`mapKVector_eq_ok_iff`). It lists the same terms as the compact form (`terms_pack`). -/

namespace GeometricAlgebra

open Blade BladeTree

variable {α : Type}

namespace Blade

theorem grade_eq (b : Nat) : grade b = b % 2 + grade (b / 2) := by
  rw [grade]
  split
  · next h => rw [h, grade, if_pos rfl]
  · rfl

/-- The vectors from `d` up are vector `d`, if it is there, and those above it. -/
theorem grade_div_two_pow (b d : Nat) :
    grade (b / 2 ^ d) = (b.testBit d).toNat + grade (b / 2 ^ (d + 1)) := by
  rw [grade_eq, Nat.toNat_testBit, Nat.div_div_eq_div_mul, Nat.pow_succ]

theorem grade_xor_of_and_eq_zero {a b : Nat} (h : a &&& b = 0) :
    grade (a ^^^ b) = grade a + grade b := by
  have hsum := grade_xor_add a b
  rwa [h, grade_eq_zero_iff.mpr rfl, Nat.mul_zero, Nat.add_zero] at hsum

end Blade

namespace Terms

variable {S : Scalars α} {n j k : Nat} {a b t : Terms α}

/-- All blades belong to an `n`-dimensional algebra and have the grade `k`. -/
def Homogeneous (n k : Nat) (t : Terms α) : Prop := ∀ b ∈ t, b < 2 ^ n ∧ grade b = k

theorem homogeneous_empty : Homogeneous n k (∅ : Terms α) := fun _ hb =>
  absurd hb Std.ExtTreeMap.not_mem_empty

theorem homogeneous_one (v : α) : Homogeneous n 0 ((∅ : Terms α).insert 0 v) :=
  (touches_insert 0 v).forall_mem ⟨Nat.two_pow_pos n, grade_eq_zero_iff.mpr rfl⟩
    fun _ hb => absurd hb Std.ExtTreeMap.not_mem_empty

/-- Outer products add grades. -/
theorem Homogeneous.wedge (ha : a.Homogeneous n j) (hb : b.Homogeneous n k) :
    (wedge S a b).Homogeneous n (j + k) := by
  refine forall_mem_wedge fun s hs u hu hdisjoint => ?_
  obtain ⟨hslt, hsgrade⟩ := ha s hs
  obtain ⟨hult, hugrade⟩ := hb u hu
  refine ⟨Nat.xor_lt_two_pow hslt hult, ?_⟩
  rw [grade_xor_of_and_eq_zero hdisjoint, hsgrade, hugrade]

/-! ## Two forms for one grade -/

/-- The form of one grade can be given exactly to terms of that grade. -/
theorem ofOneGrade_eq_ok_iff {m : Multivector α} :
    ofOneGrade S t k = .ok m ↔
      (∀ b ∈ dropZeros S t, grade b = k) ∧ m = toRanks (dropZeros S t) k := by
  simp only [ofOneGrade]
  split
  · next b hfound =>
      have hb := List.mem_of_find?_eq_some hfound
      have hne := List.find?_some hfound
      rw [Std.ExtTreeMap.mem_keys] at hb
      refine iff_of_false (by simp) fun h => ?_
      simp [h.1 b hb] at hne
  · next hnone =>
      rw [List.find?_eq_none] at hnone
      have hgrade : ∀ b ∈ dropZeros S t, grade b = k := fun b hb => by
        simpa using hnone b (Std.ExtTreeMap.mem_keys.mpr hb)
      rw [and_iff_right hgrade, Except.ok.injEq, eq_comm]

/-- **Of terms of one grade the compact form lists the same terms as the form of that grade.** -/
theorem terms_pack (h : ∀ b ∈ t, grade b = k) : (pack t).terms = (toRanks t k).terms := by
  rw [pack]
  split
  · next hnil =>
      rw [toRanks, hnil]
      rfl
  · next v hscalar =>
      have hzero : 0 ∈ t := mem_of_mem_toList (s := (0, v)) (by simp [hscalar])
      obtain rfl : k = 0 := (h 0 hzero).symm.trans (grade_eq_zero_iff.mpr rfl)
      rw [toRanks, hscalar, List.map_singleton, Multivector.ofRanks,
        Std.ExtTreeMap.ofList_singleton]
      rfl
  · next hne _ =>
      -- there is a term, so its grade is the only one
      have hgrades : (Multivector.sparse t).grades = [k] := by
        obtain ⟨s, hs⟩ := List.exists_mem_of_ne_nil _ hne
        refine (Multivector.eq_singleton_iff (Multivector.pairwise_grades _)).mpr
          ⟨List.ne_nil_of_mem (mem_grades_sparse.mpr ⟨s.1, mem_of_mem_toList hs, rfl⟩), ?_⟩
        intro g hg
        obtain ⟨b, hb, rfl⟩ := mem_grades_sparse.mp hg
        exact h b hb
      simp only [hgrades]

end Terms

/-! ## The walk over images -/

namespace BladeTree

variable {S : Scalars α} {n : Nat} {images : List (Terms α)} {mv : Multivector α}

/-- What is known about a node at depth `d`: its terms are terms of the operand, and the running
    product has as many vectors as each of them has from `d` up. -/
structure GradedNode (n : Nat) (all : List (Nat × α)) (d : Nat) (node : Node (ImageState α)) :
    Prop where
  depth : node.depth = d
  subset : ∀ t ∈ node.state.terms, t ∈ all
  running : ∀ t ∈ node.state.terms, node.state.running.Homogeneous n (grade (t.1 / 2 ^ d))

/-- At the root nothing is taken. -/
theorem gradedNode_root (d : Nat) (mv : Multivector α) (v : α) :
    GradedNode n (rootTerms d mv) d ⟨d, 0, ⟨(∅ : Terms α).insert 0 v, rootTerms d mv⟩⟩ where
  depth := rfl
  subset _ ht := ht
  running t ht := by
    have hlt : t.1 < 2 ^ d := by
      have := (List.mem_filter.mp ht).2
      rwa [decide_eq_true_eq, Nat.one_shiftLeft] at this
    rw [Nat.div_eq_of_lt hlt, grade_eq_zero_iff.mpr rfl]
    exact Terms.homogeneous_one v

section Images

variable (himages : ∀ image ∈ images, image.Homogeneous n 1)

include himages

/-- A child that takes its vector multiplies an image on to the running product. -/
theorem GradedNode.child {all : List (Nat × α)} {d b : Nat} {node : Node (ImageState α)}
    {s : ImageState α} (h : GradedNode n all (d + 1) node)
    (hs : imageBranch S images node b = some s) :
    GradedNode n all d (childNode node b s) := by
  obtain ⟨hterms, -, hrunning⟩ := imageBranch_cases hs
  rw [childTerms_eq h.depth] at hterms
  refine ⟨depth_childNode h.depth b s, fun t ht => ?_, fun t ht => ?_⟩
  · rw [childNode, hterms] at ht
    exact h.subset t (List.mem_of_mem_filter ht)
  · rw [childNode, hterms, List.mem_filter, beq_iff_eq] at ht
    have hgrade := h.running t ht.1
    rw [childNode, hrunning, grade_div_two_pow, ht.2]
    cases b % 2 == 1 with
    | false => simpa using hgrade
    | true =>
        have himage := Terms.getD_of_forall Terms.homogeneous_empty himages node.childVector
        exact himage.wedge hgrade

/-- **At a leaf the running product has the grade of the leaf's term.** -/
theorem homogeneous_running {leaf : Node (ImageState α)} (hleaf : leaf ∈ imageLeaves S images mv)
    {t : Nat × α} (ht : t ∈ leaf.state.terms) :
    t ∈ rootTerms images.length mv ∧ leaf.state.running.Homogeneous n (grade t.1) := by
  have hzero : GradedNode n (rootTerms images.length mv) 0 leaf :=
    forall_leavesBelow (fun _ _ _ _ hnode _ hs => hnode.child himages hs)
      (gradedNode_root images.length mv S.one) leaf hleaf
  have hgrade := hzero.running t ht
  rw [Nat.pow_zero, Nat.div_one] at hgrade
  exact ⟨hzero.subset t ht, hgrade⟩

/-- **What the walk adds up has the grades of the terms.** -/
theorem grade_of_mem_sumOfImages {b : Nat} (hb : b ∈ (sumOfImages S images mv).1) :
    b < 2 ^ n ∧ ∃ t ∈ rootTerms images.length mv, grade t.1 = grade b := by
  rw [sumOfImages_eq_foldl] at hb
  refine List.foldlRecOn (motive := fun sum : Terms α => ∀ b ∈ sum, b < 2 ^ n ∧
    ∃ t ∈ rootTerms images.length mv, grade t.1 = grade b) (imageLeaves S images mv) _
    (fun b hb => absurd hb Std.ExtTreeMap.not_mem_empty) (fun sum hsum leaf hleaf => ?_) b hb
  simp only [imageWalker]
  split
  · next t rest hterms =>
      obtain ⟨hroot, hrunning⟩ := homogeneous_running himages hleaf (t := t)
        (by simp [hterms])
      refine Terms.forall_mem_foldl (fun u hu => ⟨Terms.touches_add S u.1 _, ?_⟩) hsum
      obtain ⟨hlt, hgrade⟩ := hrunning u.1 (Terms.mem_of_mem_toList hu)
      exact ⟨hlt, t, hroot, hgrade.symm⟩
  · exact hsum

end Images

end BladeTree

/-! ## Maps -/

namespace Outermorphism

variable {S : Scalars α} {f : Outermorphism α} {mv m : Multivector α} {k : Nat}

theorem map_eq_ok (hmv : mv.validate f.domain = .ok ()) :
    f.map S mv = .ok (Terms.compact S (BladeTree.sumOfImages S f.images mv).1) := by
  rw [map, hmv]
  rfl

section WellFormed

variable (hf : f.WellFormed)

include hf

theorem WellFormed.grade_of_mem_sumOfImages (hmv : mv.InRange f.domain) {b : Nat}
    (hb : b ∈ (BladeTree.sumOfImages S f.images mv).1) :
    b < 2 ^ f.target ∧ ∃ t ∈ mv.terms, grade t.1 = grade b := by
  obtain ⟨hlt, t, ht, hgrade⟩ := BladeTree.grade_of_mem_sumOfImages hf.vectors hb
  exact ⟨hlt, t, (BladeTree.mem_rootTerms hf.domain_le hmv).mp ht, hgrade⟩

/-- A map of one grade is given the form of that grade where the operand belongs to the domain and
    has that grade. -/
theorem mapKVector_eq_ok_iff :
    f.mapKVector S mv k = .ok m ↔
      (mv.validate f.domain = .ok () ∧ ∀ t ∈ mv.terms, grade t.1 = k) ∧
        m = Terms.toRanks (Terms.dropZeros S (BladeTree.sumOfImages S f.images mv).1) k := by
  by_cases hvalid : mv.validate f.domain = .ok ()
  · have hrange := ((Multivector.validate_eq_ok_iff _ mv).mp hvalid).2
    have hgrades : mv.grades.find? (· != k) = none ↔ ∀ t ∈ mv.terms, grade t.1 = k := by
      rw [find?_bne_eq_none_iff]
      simp only [Multivector.mem_grades hf.domain_le hrange]
      exact ⟨fun h t ht => h _ ⟨t, ht, rfl⟩, fun h g ⟨t, ht, hg⟩ => hg ▸ h t ht⟩
    rw [mapKVector, hvalid, ← hgrades, and_iff_right rfl]
    split
    · next g hg => simp [hg]
    · next hnone =>
        rw [hnone, and_iff_right rfl]
        refine Terms.ofOneGrade_eq_ok_iff.trans (and_iff_right fun b hb => ?_)
        obtain ⟨-, t, ht, hgrade⟩ :=
          hf.grade_of_mem_sumOfImages hrange (Terms.mem_of_mem_dropZeros hb)
        exact hgrade.symm.trans (hgrades.mp hnone t ht)
  · refine iff_of_false (fun h => ?_) fun h => hvalid h.1.1
    rw [mapKVector] at h
    split at h
    · cases h
    · obtain ⟨⟨⟩, hok, -⟩ := bind_eq_ok_iff.mp h
      exact hvalid hok

end WellFormed

/-- **Maps keep grades, whatever the arithmetic.** Let a map be built by the operations of the
    library. It takes every multivector of its domain, and what it gives has blades of the target
    alone, each of a grade that the operand has. A multivector can be mapped as one of grade `k` iff
    it belongs to the domain and all its terms have that grade; the result has the form of that
    grade and lists the same terms as the map of any multivector. -/
theorem map_grades {f : Outermorphism α} (hf : f.Built) (S : Scalars α) (a : Multivector α) :
    (a.validate f.domain = .ok () → ∃ m, f.map S a = .ok m ∧
      ∀ t ∈ m.terms, t.1 < 2 ^ f.target ∧ ∃ s ∈ a.terms, grade s.1 = grade t.1) ∧
    ∀ k, ((∃ m, f.mapKVector S a k = .ok m) ↔
        a.validate f.domain = .ok () ∧ ∀ s ∈ a.terms, grade s.1 = k) ∧
      ∀ m, f.mapKVector S a k = .ok m → (∃ ranks, m = .kvector k ranks) ∧
        ∃ m', f.map S a = .ok m' ∧ m.terms = m'.terms := by
  have hf := hf.wellFormed
  refine ⟨fun ha => ⟨_, map_eq_ok ha, fun t ht => ?_⟩, fun k => ⟨?_, fun m hm => ?_⟩⟩
  · have hrange := ((Multivector.validate_eq_ok_iff _ a).mp ha).2
    have hmem := (Terms.mem_terms_compact hf.target_le fun _ hb =>
      (hf.grade_of_mem_sumOfImages hrange hb).1).mp ht
    exact hf.grade_of_mem_sumOfImages hrange (Terms.mem_iff_exists_getElem?.mpr ⟨t.2, hmem.1⟩)
  · simp only [mapKVector_eq_ok_iff hf, exists_and_left, exists_eq, and_true]
  · obtain ⟨⟨ha, hgrade⟩, rfl⟩ := (mapKVector_eq_ok_iff hf).mp hm
    have hrange := ((Multivector.validate_eq_ok_iff _ a).mp ha).2
    refine ⟨⟨_, rfl⟩, _, map_eq_ok ha, (Terms.terms_pack fun b hb => ?_).symm⟩
    obtain ⟨-, s, hs, hgrade'⟩ := hf.grade_of_mem_sumOfImages hrange (Terms.mem_of_mem_dropZeros hb)
    exact hgrade'.symm.trans (hgrade s hs)

/-- The sample map with a product of scalars that is neither associative nor commutative, on terms
    of the grades zero, one and three, and on a bivector. -/
theorem map_grades_sample :
    let S : Scalars Int :=
      { Scalars.integers with mul := fun x y => x - 2 * y, isZero := fun x => x == 3 }
    let a : Multivector Int := .ofBlades [(0, 2), (4, 5), (7, -1)]
    let b : Multivector Int := .bivector [1, 0, 4]
    a.validate sample.domain = .ok () ∧ b.validate sample.domain = .ok () ∧
      (∃ m, sample.map S a = .ok m ∧
        ∀ t ∈ m.terms, t.1 < 2 ^ sample.target ∧ ∃ s ∈ a.terms, grade s.1 = grade t.1) ∧
      (¬ ∃ m, sample.mapKVector S a 1 = .ok m) ∧
      ∃ m, sample.mapKVector S b 2 = .ok m ∧ (∃ ranks, m = .kvector 2 ranks) ∧
        ∃ m', sample.map S b = .ok m' ∧ m.terms = m'.terms := by
  intro S a b
  have ha : a.validate sample.domain = .ok () := by cbv
  have hb : b.validate sample.domain = .ok () := by cbv
  obtain ⟨hmap, hkvector⟩ := map_grades built_sample S a
  obtain ⟨-, hbivector⟩ := map_grades built_sample S b
  obtain ⟨hok, hform⟩ := hbivector 2
  obtain ⟨m, hm⟩ := hok.mpr ⟨hb, by decide +kernel⟩
  refine ⟨ha, hb, hmap ha, fun h => ?_, m, hm, hform m hm⟩
  have hgrade := ((hkvector 1).1.mp h).2
  exact absurd hgrade (by decide +kernel)

end Outermorphism

end GeometricAlgebra
