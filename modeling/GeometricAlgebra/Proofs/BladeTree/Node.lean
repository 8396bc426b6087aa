import GeometricAlgebra.BladeTree.Grades
import GeometricAlgebra.Proofs.Multivector.View

set_option autoImplicit false

/-! # What a node of the tree stands for

A node at depth `d` has decided the vectors from `d` up. `putVector` is one such decision, and
`Below` says what it means for the terms that a node carries: they are those of the whole
multivector that agree with the node on the decided vectors. Every child narrows this to one half
(`Below.filter`), the root has all terms (`below_rootTerms`) and a leaf those of its own blade
(`below_zero_iff`). -/

namespace GeometricAlgebra

namespace BladeTree

open Blade

variable {α : Type}

/-! ## Deciding a vector -/

/-- The blade with vector `d` put into it, or not. -/
def putVector (b d : Nat) (taken : Bool) : Nat := if taken then b ||| ofVector d else b

theorem testBit_putVector (b d i : Nat) (taken : Bool) :
    (putVector b d taken).testBit i = (b.testBit i || (taken && decide (d = i))) := by
  unfold putVector
  cases taken with
  | false => simp
  | true => simp [ofVector, Nat.one_shiftLeft, Nat.testBit_two_pow]

theorem testBit_putVector_of_ne {b d i : Nat} (taken : Bool) (h : d ≠ i) :
    (putVector b d taken).testBit i = b.testBit i := by
  simp [testBit_putVector, h]

theorem testBit_putVector_self {b d : Nat} (taken : Bool) (h : b.testBit d = false) :
    (putVector b d taken).testBit d = taken := by
  simp [testBit_putVector, h]

theorem putVector_eq_xor {b d : Nat} (taken : Bool) (h : b.testBit d = false) :
    putVector b d taken = b ^^^ if taken then ofVector d else 0 := by
  apply Nat.eq_of_testBit_eq
  intro i
  rw [testBit_putVector, Nat.testBit_xor]
  cases taken with
  | false => simp
  | true =>
      by_cases hi : d = i
      · subst hi
        simp [h, ofVector, Nat.one_shiftLeft]
      · simp [hi, ofVector, Nat.one_shiftLeft]

/-- Only vectors from `d` up take part. -/
def Decided (d b : Nat) : Prop := ∀ i < d, b.testBit i = false

theorem Decided.putVector {d b : Nat} (taken : Bool) (h : Decided (d + 1) b) :
    Decided d (putVector b d taken) := by
  intro i hi
  rw [testBit_putVector_of_ne taken (by omega)]
  exact h i (by omega)

theorem Decided.lt_of_mem {d b i : Nat} (h : Decided d b) (hi : i ∈ vectorSet b) : d ≤ i := by
  by_contra hlt
  rw [mem_vectorSet, h i (not_le.mp hlt)] at hi
  exact absurd hi (by decide)

/-! ## Children -/

section Child

variable {σ : Type} {node : Node σ} {d : Nat} (hdepth : node.depth = d + 1)

include hdepth

theorem childVector_eq : node.childVector = d := by
  rw [Node.childVector, hdepth, Nat.add_sub_cancel]

theorem or_childBit_eq_putVector (b : Nat) (taken : Bool) :
    (if taken then b ||| node.childBit else b) = putVector b d taken := by
  rw [Node.childBit, childVector_eq hdepth, putVector]

theorem childBlade_eq_putVector (taken : Bool) :
    node.childBlade taken = putVector node.blade d taken :=
  or_childBit_eq_putVector hdepth node.blade taken

theorem childTerms_eq (taken : Bool) (l : List (Nat × α)) :
    childTerms node taken l = l.filter fun t => t.1.testBit d == taken := by
  rw [childTerms, childVector_eq hdepth]

end Child

/-! ## The terms below a node -/

/-- The list `l` holds the terms among `all` that agree with `b` on the vectors from `d` up. -/
def Below (all : List (Nat × α)) (d b : Nat) (l : List (Nat × α)) : Prop :=
  ∀ t, t ∈ l ↔ t ∈ all ∧ ∀ i, d ≤ i → t.1.testBit i = b.testBit i

theorem Below.filter {all l : List (Nat × α)} {d b : Nat} (taken : Bool)
    (h : Below all (d + 1) b l) (hb : b.testBit d = false) :
    Below all d (putVector b d taken) (l.filter fun t => t.1.testBit d == taken) := by
  intro t
  rw [List.mem_filter, h t, and_assoc, beq_iff_eq]
  refine and_congr_right fun _ => ⟨fun ⟨hhigh, hd⟩ i hi => ?_, fun hall => ⟨fun i hi => ?_, ?_⟩⟩
  · rcases Nat.eq_or_lt_of_le hi with rfl | hlt
    · rw [hd, testBit_putVector_self taken hb]
    · rw [hhigh i hlt, testBit_putVector_of_ne taken (by omega)]
  · rw [hall i (by omega), testBit_putVector_of_ne taken (by omega)]
  · rw [hall d le_rfl, testBit_putVector_self taken hb]

theorem below_zero_iff {all l : List (Nat × α)} {b : Nat} (h : Below all 0 b l) {t : Nat × α} :
    t ∈ l ↔ t ∈ all ∧ t.1 = b := by
  rw [h t]
  refine and_congr_right fun _ => ⟨fun hall => Nat.eq_of_testBit_eq fun i => hall i (by omega), ?_⟩
  rintro rfl i _
  rfl

/-- Two terms of one blade are one term. -/
theorem eq_of_fst_eq {all : List (Nat × α)} (h : (all.map Prod.fst).Nodup) {s t : Nat × α}
    (hs : s ∈ all) (ht : t ∈ all) (heq : s.1 = t.1) : s = t :=
  List.inj_on_of_nodup_map h hs ht heq

/-- At a leaf there is at most one term. -/
theorem Below.head?_eq {all l : List (Nat × α)} {b : Nat} (h : Below all 0 b l)
    (hall : (all.map Prod.fst).Nodup) {s : Nat × α} (hs : s ∈ l) : l.head? = some s := by
  cases l with
  | nil => cases hs
  | cons t l =>
      obtain ⟨hsall, hsb⟩ := (below_zero_iff h).mp hs
      obtain ⟨htall, htb⟩ := (below_zero_iff h).mp List.mem_cons_self
      rw [List.head?_cons, eq_of_fst_eq hall htall hsall (htb.trans hsb.symm)]

/-! ## The terms below the root -/

theorem below_rootTerms (n : Nat) (mv : Multivector α) :
    Below (rootTerms n mv) n 0 (rootTerms n mv) := by
  intro t
  refine ⟨fun ht => ⟨ht, fun i hi => ?_⟩, fun h => h.1⟩
  have hlt := (List.mem_filter.mp ht).2
  rw [decide_eq_true_eq, Nat.one_shiftLeft] at hlt
  rw [Nat.zero_testBit]
  exact Nat.testBit_lt_two_pow (hlt.trans_le (Nat.pow_le_pow_right (by decide) hi))

theorem nodup_map_fst_rootTerms (n : Nat) (mv : Multivector α) :
    ((rootTerms n mv).map Prod.fst).Nodup :=
  (Terms.nodup_map_fst_toList mv.toTerms).sublist (List.filter_sublist.map Prod.fst)

/-- Below the root are all terms of a multivector of the algebra. -/
theorem mem_rootTerms {n : Nat} {mv : Multivector α} (hn : n ≤ maxDimension) (h : mv.InRange n)
    {t : Nat × α} : t ∈ rootTerms n mv ↔ t ∈ mv.terms := by
  rw [rootTerms, List.mem_filter, Std.ExtTreeMap.mem_toList_iff_getElem?_eq_some,
    Multivector.getElem?_toTerms_iff hn h, decide_eq_true_eq, Nat.one_shiftLeft]
  exact ⟨fun ht => ht.1, fun ht => ⟨ht, Multivector.lt_of_mem_terms hn h ht⟩⟩

end BladeTree

end GeometricAlgebra
