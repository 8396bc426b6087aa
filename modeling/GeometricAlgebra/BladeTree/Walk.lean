import GeometricAlgebra.BladeTree.Basic

set_option autoImplicit false

/-! # Walks over the tree of blades

A walk visits the nodes of the tree from the root down and from left to right, and leaves out every
subtree that its `Walker` refuses. What a walker does with a leaf, and what it finds out on the way,
goes through a state of its own, so that a walk is a fold over the leaves it reaches.

A node may have more children than the two of the tree: of a child's number only the lowest bit says
whether the node's vector takes part, the rest is up to the walker, which so walks over several
trees at once. -/

namespace GeometricAlgebra

namespace BladeTree

/-- What a walk does, with `ω` its state and `σ` the state of a node. -/
structure Walker (ω σ : Type) where
  /-- The number of children of a node. -/
  branches : Nat
  /-- The state of a child, or none where the child is left out. -/
  descend : ω → Node σ → Nat → Option σ × ω
  leaf : ω → Node σ → ω

/-- How many nodes a walk visited, how many of these were leaves, and how many children it left
    out. -/
structure Stats where
  visited : Nat
  leaves : Nat
  pruned : Nat
  deriving DecidableEq, Repr

/-- A walk under way. -/
structure Walk (ω σ : Type) where
  stack : Stack σ
  stats : Stats
  state : ω

namespace Walk

variable {ω σ : Type}

/-- Before the first node. -/
def start (dimension : Nat) (root : σ) (state : ω) : Walk ω σ :=
  ⟨Stack.root dimension root, ⟨0, 0, 0⟩, state⟩

/-- Pushes the children of a node below number `b`, the last one first. -/
def expand (w : Walker ω σ) (node : Node σ) : (b : Nat) → Walk ω σ → Walk ω σ
  | 0, walk => walk
  | b + 1, walk =>
    match w.descend walk.state node b with
    | (some child, state) =>
      expand w node b
        { walk with
          stack := walk.stack.pushChild node.depth (node.childBlade (b % 2 == 1)) child
          state }
    | (none, state) =>
      expand w node b
        { walk with stats := { walk.stats with pruned := walk.stats.pruned + 1 }, state }

/-- Visits a node that has been taken off the stack. -/
def visit (w : Walker ω σ) (node : Node σ) (walk : Walk ω σ) : Walk ω σ :=
  let stats := { walk.stats with visited := walk.stats.visited + 1 }
  if node.isLeaf then
    { walk with
      stats := { stats with leaves := stats.leaves + 1 }
      state := w.leaf walk.state node }
  else expand w node w.branches { walk with stats }

/-! ## The end of a walk -/

/-- A bound on the number of nodes below and including one of the given depth. -/
def nodeWeight (branches : Nat) : (depth : Nat) → Nat
  | 0 => 1
  | d + 1 => 1 + branches * nodeWeight branches d

/-- A bound on the number of nodes that are still to be visited. -/
def weight (branches : Nat) : Stack σ → Nat
  | [] => 0
  | node :: rest => nodeWeight branches node.depth + weight branches rest

theorem weight_expand_le (w : Walker ω σ) (node : Node σ) (c b : Nat) (walk : Walk ω σ) :
    weight c (expand w node b walk).stack
      ≤ weight c walk.stack + b * nodeWeight c (node.depth - 1) := by
  induction b generalizing walk with
  | zero => simp [expand]
  | succ b ih =>
    rw [expand, Nat.add_mul, Nat.one_mul]
    split
    · refine Nat.le_trans (ih _) ?_
      simp only [Stack.pushChild, weight]
      omega
    · refine Nat.le_trans (ih _) ?_
      simp only
      omega

theorem weight_visit_lt (w : Walker ω σ) (node : Node σ) (walk : Walk ω σ) :
    weight w.branches (visit w node walk).stack
      < nodeWeight w.branches node.depth + weight w.branches walk.stack := by
  rw [visit, Node.isLeaf]
  cases hd : node.depth with
  | zero => simp [nodeWeight]
  | succ d =>
    simp only [Nat.add_one_ne_zero, beq_iff_eq, if_false, nodeWeight]
    have := weight_expand_le w node w.branches w.branches
      { walk with stats := { walk.stats with visited := walk.stats.visited + 1 } }
    rw [hd, Nat.add_sub_cancel] at this
    simp only at this
    omega

/-- Visits all nodes on the stack and below. -/
def finish (w : Walker ω σ) (walk : Walk ω σ) : Walk ω σ :=
  match _ : walk.stack with
  | [] => walk
  | node :: rest => finish w (visit w node { walk with stack := rest })
termination_by weight w.branches walk.stack
decreasing_by
  rename_i h
  rw [h]
  exact weight_visit_lt w node { walk with stack := rest }

end Walk

/-- Walks over the tree of an algebra. -/
def walk {ω σ : Type} (dimension : Nat) (w : Walker ω σ) (root : σ) (state : ω) : ω × Stats :=
  let done := (Walk.start dimension root state).finish w
  (done.state, done.stats)

end BladeTree

end GeometricAlgebra
