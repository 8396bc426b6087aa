import GeometricAlgebra.Blade.Basic

set_option autoImplicit false

/-! # The tree of basis blades

The blades of an `n`-dimensional algebra are the leaves of a binary tree of depth `n`. A node
decides one basis vector, the root the last one: at depth `d + 1` whether vector `d` takes part. So
a node stands for the blades that share all vectors from its depth up, a contiguous range of
numbers, and the leaves from left to right are all blades in ascending order.

A walk over the tree holds the nodes that it still has to visit on a stack. -/

namespace GeometricAlgebra

namespace BladeTree

/-- A node, with what a walk knows about it. -/
structure Node (σ : Type) where
  /-- The number of vectors that are still undecided; a leaf has none. -/
  depth : Nat
  /-- The vectors that take part so far. -/
  blade : Nat
  state : σ

namespace Node

variable {σ : Type}

def isLeaf (node : Node σ) : Bool := node.depth == 0

/-- The basis vector that the node decides. -/
def childVector (node : Node σ) : Nat := node.depth - 1

/-- The blade of that vector. -/
def childBit (node : Node σ) : Nat := Blade.ofVector node.childVector

/-- The vectors that take part so far in the child with or without the node's vector. -/
def childBlade (node : Node σ) (taken : Bool) : Nat :=
  if taken then node.blade ||| node.childBit else node.blade

/-- The largest blade below the node; the smallest is the node's own. -/
def lastBlade (node : Node σ) : Nat := node.blade ||| Blade.firstVectors node.depth

end Node

/-! ## The stack -/

/-- The nodes still to visit, the next one first. -/
abbrev Stack (σ : Type) := List (Node σ)

namespace Stack

variable {σ : Type}

/-- The most nodes that a stack ever holds in a walk over a tree of the given depth: on each level
    all children but the one that is visited, and the root. -/
def capacity (dimension branches : Nat) : Nat := (branches - 1) * dimension + 1

/-- The stack that holds the root alone. -/
def root (dimension : Nat) (state : σ) : Stack σ := [⟨dimension, 0, state⟩]

/-- Puts a child of a node of the given depth on top. -/
def pushChild (stack : Stack σ) (parentDepth blade : Nat) (state : σ) : Stack σ :=
  ⟨parentDepth - 1, blade, state⟩ :: stack

end Stack

end BladeTree

end GeometricAlgebra
