import Mathlib
import GeometricAlgebra.BladeTree.Walk

set_option autoImplicit false

/-! # A walk is a recursive visit

`Walk.finish` takes nodes off a stack until none is left. `visitTree` is the same procedure by
recursion on the depth: a leaf is handed to the walker, any other node is expanded and the accepted
children are visited in ascending order. `walk_state` says that both end in the same state; the
invariant is that what is still on the stack is visited in order.

The walkers over terms decide on a child without touching their own state. Their walks are folds
over `leavesBelow`, a list that does not mention the walker's state (`walk_state_of_pure`). -/

namespace GeometricAlgebra

namespace BladeTree

variable {ω σ : Type}

/-! ## The recursive visit -/

/-- The child of a node on branch `b`, in the given state. -/
def childNode (node : Node σ) (b : Nat) (child : σ) : Node σ :=
  ⟨node.depth - 1, node.childBlade (b % 2 == 1), child⟩

theorem depth_childNode {node : Node σ} {d : Nat} (hdepth : node.depth = d + 1) (b : Nat)
    (child : σ) : (childNode node b child).depth = d := by
  rw [childNode, hdepth, Nat.add_sub_cancel]

/-- The children of a node on the branches below `b` that a walker accepts, ascending, and the state
    of the walker after it has decided on them, from the last branch down. -/
def offspring (w : Walker ω σ) (node : Node σ) : Nat → ω → List (Node σ) × ω
  | 0, s => ([], s)
  | b + 1, s =>
    match w.descend s node b with
    | (some child, s') =>
      ((offspring w node b s').1 ++ [childNode node b child], (offspring w node b s').2)
    | (none, s') => offspring w node b s'

/-- Visits a node of the given depth and all that is below it. -/
def visitTree (w : Walker ω σ) : Nat → Node σ → ω → ω
  | 0, node, s => w.leaf s node
  | d + 1, node, s =>
    (offspring w node w.branches s).1.foldl (fun s child => visitTree w d child s)
      (offspring w node w.branches s).2

theorem depth_of_mem_offspring {w : Walker ω σ} {node child : Node σ} {b : Nat} {s : ω}
    (h : child ∈ (offspring w node b s).1) : child.depth = node.depth - 1 := by
  induction b generalizing s with
  | zero => simp [offspring] at h
  | succ b ih =>
      rw [offspring] at h
      split at h
      · rcases List.mem_append.mp h with h | h
        · exact ih h
        · rw [List.mem_singleton.mp h, childNode]
      · exact ih h

/-! ## The stack -/

namespace Walk

theorem expand_stack (w : Walker ω σ) (node : Node σ) (b : Nat) (walk : Walk ω σ) :
    (expand w node b walk).stack = (offspring w node b walk.state).1 ++ walk.stack ∧
      (expand w node b walk).state = (offspring w node b walk.state).2 := by
  induction b generalizing walk with
  | zero => exact ⟨rfl, rfl⟩
  | succ b ih =>
      rw [expand, offspring]
      rcases w.descend walk.state node b with ⟨_ | child, s'⟩
      · exact ih _
      · exact ⟨(ih _).1.trans (List.append_assoc _ [childNode node b child] _).symm, (ih _).2⟩

/-- Visiting a node puts its children on the stack, or ends in a leaf. Either way what remains to be
    done is to visit the node recursively and then the rest of the stack. -/
theorem foldl_visit (w : Walker ω σ) (node : Node σ) (walk : Walk ω σ) :
    (visit w node walk).stack.foldl (fun s node => visitTree w node.depth node s)
        (visit w node walk).state
      = walk.stack.foldl (fun s node => visitTree w node.depth node s)
          (visitTree w node.depth node walk.state) := by
  rw [visit, Node.isLeaf]
  cases hd : node.depth with
  | zero => rfl
  | succ d =>
      simp only [Nat.add_one_ne_zero, beq_iff_eq, if_false]
      -- the children lie on top of the stack, each with one vector less to decide
      rw [(expand_stack w node w.branches _).1, (expand_stack w node w.branches _).2,
        List.foldl_append, visitTree]
      congr 1
      refine List.foldl_ext _ _ _ fun s child hchild => ?_
      rw [depth_of_mem_offspring hchild, hd, Nat.add_sub_cancel]

/-- What is on the stack is visited in order. -/
theorem finish_state (w : Walker ω σ) (walk : Walk ω σ) :
    (finish w walk).state
      = walk.stack.foldl (fun s node => visitTree w node.depth node s) walk.state := by
  fun_induction finish w walk with
  | case1 walk h => rw [h, List.foldl_nil]
  | case2 walk node rest h ih => rw [ih, foldl_visit, h, List.foldl_cons]

end Walk

/-- **A walk does what the recursive visit of the root does.** -/
theorem walk_state (n : Nat) (w : Walker ω σ) (root : σ) (s : ω) :
    (walk n w root s).1 = visitTree w n ⟨n, 0, root⟩ s := by
  simp only [walk, Walk.start, Walk.finish_state, Stack.root, List.foldl_cons, List.foldl_nil]

/-! ## Walkers that only fold over leaves -/

section Pure

variable (branches : Nat) (g : Node σ → Nat → Option σ)

/-- The accepted children of a node, ascending, where `g` decides on them. -/
def childrenOf (node : Node σ) : List (Node σ) :=
  (List.range branches).filterMap fun b => (g node b).map (childNode node b)

/-- The leaves below a node of the given depth, from left to right. -/
def leavesBelow : Nat → Node σ → List (Node σ)
  | 0, node => [node]
  | d + 1, node => (childrenOf branches g node).flatMap (leavesBelow d)

variable {branches g}

theorem mem_childrenOf {node child : Node σ} :
    child ∈ childrenOf branches g node
      ↔ ∃ b < branches, ∃ s, g node b = some s ∧ child = childNode node b s := by
  simp only [childrenOf, List.mem_filterMap, List.mem_range, Option.map_eq_some_iff]
  constructor
  · rintro ⟨b, hb, s, hs, rfl⟩
    exact ⟨b, hb, s, hs, rfl⟩
  · rintro ⟨b, hb, s, hs, rfl⟩
    exact ⟨b, hb, s, hs, rfl⟩

theorem offspring_of_pure {w : Walker ω σ} (hw : ∀ s node b, w.descend s node b = (g node b, s))
    (node : Node σ) (b : Nat) (s : ω) : offspring w node b s = (childrenOf b g node, s) := by
  induction b with
  | zero => rfl
  | succ b ih =>
      rw [offspring, hw, childrenOf, List.range_succ, List.filterMap_append, ← childrenOf]
      cases h : g node b with
      | none => simp [ih, h]
      | some child => simp [ih, h]

theorem visitTree_of_pure {w : Walker ω σ} (hw : ∀ s node b, w.descend s node b = (g node b, s))
    (d : Nat) (node : Node σ) (s : ω) :
    visitTree w d node s = (leavesBelow w.branches g d node).foldl w.leaf s := by
  induction d generalizing node s with
  | zero => rfl
  | succ d ih =>
      rw [visitTree, offspring_of_pure hw, leavesBelow, List.foldl_flatMap]
      simp only [ih]

/-- A walk whose decisions do not depend on its state is a fold over the leaves. -/
theorem walk_state_of_pure {w : Walker ω σ} (hw : ∀ s node b, w.descend s node b = (g node b, s))
    (n : Nat) (root : σ) (s : ω) :
    (walk n w root s).1 = (leavesBelow w.branches g n ⟨n, 0, root⟩).foldl w.leaf s := by
  rw [walk_state, visitTree_of_pure hw]

/-- What holds at a node and is handed down to every accepted child holds at every leaf. -/
theorem forall_leavesBelow {P : Nat → Node σ → Prop}
    (hstep : ∀ d node b s, P (d + 1) node → b < branches → g node b = some s →
      P d (childNode node b s))
    {d : Nat} {node : Node σ} (hroot : P d node) :
    ∀ leaf ∈ leavesBelow branches g d node, P 0 leaf := by
  induction d generalizing node with
  | zero =>
      intro leaf hleaf
      rw [leavesBelow, List.mem_singleton] at hleaf
      rwa [hleaf]
  | succ d ih =>
      intro leaf hleaf
      obtain ⟨child, hchild, hleaf⟩ := List.mem_flatMap.mp hleaf
      obtain ⟨b, hb, s, hs, rfl⟩ := mem_childrenOf.mp hchild
      exact ih (hstep d node b s hroot hb hs) leaf hleaf

/-- What holds at a node and is handed down to some accepted child holds at some leaf. -/
theorem exists_leavesBelow {P : Nat → Node σ → Prop}
    (hstep : ∀ d node, P (d + 1) node → ∃ b < branches, ∃ s, g node b = some s ∧
      P d (childNode node b s))
    {d : Nat} {node : Node σ} (hroot : P d node) :
    ∃ leaf ∈ leavesBelow branches g d node, P 0 leaf := by
  induction d generalizing node with
  | zero => exact ⟨node, List.mem_singleton.mpr rfl, hroot⟩
  | succ d ih =>
      obtain ⟨b, hb, s, hs, hP⟩ := hstep d node hroot
      obtain ⟨leaf, hleaf, hP⟩ := ih hP
      exact ⟨leaf, List.mem_flatMap.mpr ⟨_, mem_childrenOf.mpr ⟨b, hb, s, hs, rfl⟩, hleaf⟩, hP⟩

end Pure

end BladeTree

end GeometricAlgebra
