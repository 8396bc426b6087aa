import GeometricAlgebra.Proofs.BladeTree.Walk

set_option autoImplicit false

/-! # A walk moment by moment

A walk takes a node off its stack and, unless it is a leaf, decides on the children of the node one
after another. `next` is one step of this: a call of the walker, or the end of the decisions on a
node. The steps lead from the start to the end of the walk (`mem_eval_finish`), so what every step
preserves holds at every moment of the walk.

Two things are preserved. Of the children of a node at most `branches - 1` wait on the stack while
the walk is below another one, which bounds the stack (`Bounded`); and whatever was visited, left
out or is still to be visited is the root or a child of an inner node (`Counted`). -/

namespace GeometricAlgebra

namespace BladeTree

open StateTransition (Reaches)

variable {ω σ : Type}

/-! ## One child at a time -/

namespace Walk

/-- Decides on the child of a node on branch `b`, and pushes it if it is accepted. -/
def decideChild (w : Walker ω σ) (node : Node σ) (b : Nat) (walk : Walk ω σ) : Walk ω σ :=
  match w.descend walk.state node b with
  | (some child, state) =>
    { walk with
      stack := walk.stack.pushChild node.depth (node.childBlade (b % 2 == 1)) child
      state }
  | (none, state) =>
    { walk with stats := { walk.stats with pruned := walk.stats.pruned + 1 }, state }

theorem expand_succ (w : Walker ω σ) (node : Node σ) (b : Nat) (walk : Walk ω σ) :
    expand w node (b + 1) walk = expand w node b (decideChild w node b walk) := by
  rw [expand, decideChild]
  rcases w.descend walk.state node b with ⟨_ | child, state⟩
  · rfl
  · rfl

/-- A child goes on top of the stack or is counted as left out. -/
theorem decideChild_cases (w : Walker ω σ) (node : Node σ) (b : Nat) (walk : Walk ω σ) :
    (∃ child, decideChild w node b walk = { walk with
      stack := childNode node b child :: walk.stack
      state := (w.descend walk.state node b).2 }) ∨
    decideChild w node b walk = { walk with
      stats := { walk.stats with pruned := walk.stats.pruned + 1 }
      state := (w.descend walk.state node b).2 } := by
  rw [decideChild]
  split
  · next child state h => exact Or.inl ⟨child, by rw [h]; rfl⟩
  · next state h => exact Or.inr (by rw [h])

/-- The walk in which one more node has been taken off the stack. -/
def countVisited (walk : Walk ω σ) (rest : Stack σ) : Walk ω σ :=
  { walk with stack := rest, stats := { walk.stats with visited := walk.stats.visited + 1 } }

theorem visit_of_leaf {w : Walker ω σ} {node : Node σ} (h : node.depth = 0) (walk : Walk ω σ)
    (rest : Stack σ) :
    visit w node { walk with stack := rest } = { walk.countVisited rest with
      stats := { (walk.countVisited rest).stats with leaves := walk.stats.leaves + 1 }
      state := w.leaf walk.state node } := by
  rw [visit, Node.isLeaf, h]
  rfl

theorem visit_of_inner {w : Walker ω σ} {node : Node σ} (h : 0 < node.depth) (walk : Walk ω σ)
    (rest : Stack σ) :
    visit w node { walk with stack := rest }
      = expand w node w.branches (walk.countVisited rest) := by
  rw [visit, Node.isLeaf, beq_eq_false_iff_ne.mpr h.ne']
  rfl

theorem finish_of_nil (w : Walker ω σ) {walk : Walk ω σ} (h : walk.stack = []) :
    finish w walk = walk := by
  rw [finish]
  split
  · rfl
  · next h' => exact absurd (h.symm.trans h') (List.cons_ne_nil _ _).symm

theorem finish_of_cons (w : Walker ω σ) {walk : Walk ω σ} {node : Node σ} {rest : Stack σ}
    (h : walk.stack = node :: rest) :
    finish w walk = finish w (visit w node { walk with stack := rest }) := by
  rw [finish]
  split
  · next h' => exact absurd (h.symm.trans h') (List.cons_ne_nil _ _)
  · next h' =>
      cases h.symm.trans h'
      rfl

theorem finish_stack (w : Walker ω σ) (walk : Walk ω σ) : (finish w walk).stack = [] := by
  fun_induction finish w walk with
  | case1 walk h => exact h
  | case2 walk node rest h ih => exact ih

end Walk

/-! ## Moments -/

/-- A moment of a walk. -/
structure Moment (ω σ : Type) where
  walk : Walk ω σ
  /-- The node whose children the walker decides on, with the number of branches that are left. -/
  opened : Option (Node σ × Nat)

/-- The next moment; none at the end of the walk. -/
def next (w : Walker ω σ) (m : Moment ω σ) : Option (Moment ω σ) :=
  match m.opened with
  | some (node, b + 1) => some ⟨m.walk.decideChild w node b, some (node, b)⟩
  | some (_, 0) => some ⟨m.walk, none⟩
  | none =>
    match m.walk.stack with
    | [] => none
    | node :: rest =>
      if node.depth = 0 then some ⟨Walk.visit w node { m.walk with stack := rest }, none⟩
      else some ⟨m.walk.countVisited rest, some (node, w.branches)⟩

section Next

variable {w : Walker ω σ}

/-- What a step can do: decide on a child, be done with a node, visit a leaf, or open another
    node. -/
theorem next_cases {m m' : Moment ω σ} (h : next w m = some m') :
    (∃ node b, m.opened = some (node, b + 1) ∧
      m' = ⟨m.walk.decideChild w node b, some (node, b)⟩) ∨
    (∃ node, m.opened = some (node, 0) ∧ m' = ⟨m.walk, none⟩) ∨
    (∃ node rest, m.opened = none ∧ m.walk.stack = node :: rest ∧ node.depth = 0 ∧
      m' = ⟨Walk.visit w node { m.walk with stack := rest }, none⟩) ∨
    ∃ node rest, m.opened = none ∧ m.walk.stack = node :: rest ∧ 0 < node.depth ∧
      m' = ⟨m.walk.countVisited rest, some (node, w.branches)⟩ := by
  rw [next] at h
  split at h
  · next node b hm => exact Or.inl ⟨node, b, hm, (Option.some.inj h).symm⟩
  · next node hm => exact Or.inr (Or.inl ⟨node, hm, (Option.some.inj h).symm⟩)
  · next hm =>
      split at h
      · cases h
      · next node rest hstack =>
          split at h
          · next hd =>
              exact Or.inr (Or.inr (Or.inl ⟨node, rest, hm, hstack, hd, (Option.some.inj h).symm⟩))
          · next hd =>
              exact Or.inr (Or.inr (Or.inr
                ⟨node, rest, hm, hstack, Nat.pos_of_ne_zero hd, (Option.some.inj h).symm⟩))

/-- What every step preserves holds from then on. -/
theorem preserved_of_reaches {P : Moment ω σ → Prop}
    (hstep : ∀ m m', P m → next w m = some m' → P m') {m m' : Moment ω σ}
    (h : Reaches (next w) m m') (hm : P m) : P m' := by
  induction h with
  | refl => exact hm
  | tail _ hnext ih => exact hstep _ _ ih hnext

/-! ## From the start to the end -/

theorem reaches_expand (node : Node σ) (b : Nat) (walk : Walk ω σ) :
    Reaches (next w) ⟨walk, some (node, b)⟩ ⟨walk.expand w node b, none⟩ := by
  induction b generalizing walk with
  | zero => exact Relation.ReflTransGen.single rfl
  | succ b ih =>
      rw [Walk.expand_succ]
      exact Relation.ReflTransGen.head rfl (ih _)

theorem reaches_visit {walk : Walk ω σ} {node : Node σ} {rest : Stack σ}
    (h : walk.stack = node :: rest) :
    Reaches (next w) ⟨walk, none⟩ ⟨Walk.visit w node { walk with stack := rest }, none⟩ := by
  by_cases hd : node.depth = 0
  · refine Relation.ReflTransGen.single ?_
    simp [next, h, hd]
  · have hnext : next w ⟨walk, none⟩ = some ⟨walk.countVisited rest, some (node, w.branches)⟩ := by
      simp [next, h, hd]
    rw [Walk.visit_of_inner (Nat.pos_of_ne_zero hd)]
    exact Relation.ReflTransGen.head hnext (reaches_expand node w.branches _)

/-- **The steps end, and they end as the walk does.** -/
theorem mem_eval_finish (w : Walker ω σ) (walk : Walk ω σ) :
    ⟨walk.finish w, none⟩ ∈ StateTransition.eval (next w) ⟨walk, none⟩ := by
  rw [StateTransition.mem_eval]
  constructor
  · fun_induction Walk.finish w walk with
    | case1 walk h => exact Relation.ReflTransGen.refl
    | case2 walk node rest h ih => exact (reaches_visit h).trans ih
  · simp only [next, Walk.finish_stack]

end Next

/-! ## The height of the stack -/

/-- Below every node on the stack are at most `branches - 1` nodes for each level above it. -/
def Stack.Bounded (n branches : Nat) : Stack σ → Prop
  | [] => True
  | node :: rest =>
    node.depth ≤ n ∧ rest.length ≤ (branches - 1) * (n - node.depth) ∧ Bounded n branches rest

theorem Stack.Bounded.length_le {n branches : Nat} {stack : Stack σ}
    (h : Stack.Bounded n branches stack) : stack.length ≤ Stack.capacity n branches := by
  cases stack with
  | nil => exact Nat.zero_le _
  | cons node rest =>
      have hle : (branches - 1) * (n - node.depth) ≤ (branches - 1) * n :=
        Nat.mul_le_mul_left _ (Nat.sub_le n node.depth)
      rw [List.length_cons, Stack.capacity]
      exact Nat.succ_le_succ (h.2.1.trans hle)

/-- The stack is bounded, also when all branches of the opened node that are left are accepted. -/
structure Moment.Bounded (n branches : Nat) (m : Moment ω σ) : Prop where
  stack : Stack.Bounded n branches m.walk.stack
  opened : ∀ node b, m.opened = some (node, b) → 0 < node.depth ∧ node.depth ≤ n ∧
    m.walk.stack.length + b ≤ (branches - 1) * (n - node.depth) + branches

theorem Moment.Bounded.next {n : Nat} {w : Walker ω σ} {m m' : Moment ω σ}
    (h : m.Bounded n w.branches) (hm' : next w m = some m') : m'.Bounded n w.branches := by
  rcases next_cases hm' with ⟨node, b, hm, rfl⟩ | ⟨node, hm, rfl⟩ | ⟨node, rest, hm, hs, hd, rfl⟩ |
    ⟨node, rest, hm, hs, hd, rfl⟩
  · obtain ⟨hpos, hn, hlength⟩ := h.opened node (b + 1) hm
    rcases Walk.decideChild_cases w node b m.walk with ⟨child, hc⟩ | hc
    · rw [hc]
      -- the child is one level below the node, so there is room for its siblings
      have hlevel : (w.branches - 1) * (n - (node.depth - 1))
          = (w.branches - 1) * (n - node.depth) + (w.branches - 1) := by
        rw [← Nat.mul_succ]
        congr 1
        omega
      refine ⟨⟨?_, ?_, h.stack⟩, ?_⟩
      · exact (Nat.sub_le _ _).trans hn
      · simp only [childNode]
        omega
      · rintro _ _ ⟨⟩
        refine ⟨hpos, hn, ?_⟩
        rw [List.length_cons]
        omega
    · rw [hc]
      refine ⟨h.stack, ?_⟩
      rintro _ _ ⟨⟩
      exact ⟨hpos, hn, by simp only; omega⟩
  · exact ⟨h.stack, by rintro _ _ ⟨⟩⟩
  · have hstack := h.stack
    rw [hs] at hstack
    rw [Walk.visit_of_leaf hd]
    exact ⟨hstack.2.2, by rintro _ _ ⟨⟩⟩
  · have hstack := h.stack
    rw [hs] at hstack
    refine ⟨hstack.2.2, ?_⟩
    rintro _ _ ⟨⟩
    exact ⟨hd, hstack.1, Nat.add_le_add_right hstack.2.1 _⟩

/-! ## The counts -/

/-- The branches of the opened node that are left. -/
def Moment.left (m : Moment ω σ) : Nat := m.opened.elim 0 Prod.snd

/-- Every node visited or still to be visited and every child left out is the root or one of the
    children of an inner node. -/
structure Moment.Counted (branches : Nat) (m : Moment ω σ) : Prop where
  leaves_le : m.walk.stats.leaves ≤ m.walk.stats.visited
  count : m.walk.stats.visited + m.walk.stats.pruned + m.walk.stack.length + m.left
    = 1 + branches * (m.walk.stats.visited - m.walk.stats.leaves)

theorem Moment.Counted.next {w : Walker ω σ} {m m' : Moment ω σ}
    (h : m.Counted w.branches) (hm' : next w m = some m') : m'.Counted w.branches := by
  obtain ⟨hle, hcount⟩ := h
  rcases next_cases hm' with ⟨node, b, hm, rfl⟩ | ⟨node, hm, rfl⟩ | ⟨node, rest, hm, hs, hd, rfl⟩ |
    ⟨node, rest, hm, hs, hd, rfl⟩
  · simp only [left, hm, Option.elim_some] at hcount
    rcases Walk.decideChild_cases w node b m.walk with ⟨child, hc⟩ | hc
    · rw [hc]
      refine ⟨hle, ?_⟩
      simp only [left, Option.elim_some, List.length_cons]
      omega
    · rw [hc]
      refine ⟨hle, ?_⟩
      simp only [left, Option.elim_some]
      omega
  · simp only [left, hm, Option.elim_some] at hcount
    exact ⟨hle, hcount⟩
  · simp only [left, hm, hs, Option.elim_none, List.length_cons] at hcount
    rw [Walk.visit_of_leaf hd]
    refine ⟨Nat.succ_le_succ hle, ?_⟩
    simp only [left, Walk.countVisited, Option.elim_none, Nat.add_sub_add_right]
    omega
  · simp only [left, hm, hs, Option.elim_none, List.length_cons] at hcount
    refine ⟨Nat.le_succ_of_le hle, ?_⟩
    simp only [left, Walk.countVisited, Option.elim_some, Nat.succ_sub hle, Nat.mul_succ]
    omega

/-! ## The calls -/

/-- A call of a walker, with the state that it is made in. -/
inductive Call (ω σ : Type) where
  | descend (state : ω) (node : Node σ) (branch : Nat)
  | leaf (state : ω) (node : Node σ)

def Call.isLeaf : Call ω σ → Bool
  | descend .. => false
  | leaf .. => true

/-- The walker that does the same and keeps a list of its calls, the first one first. -/
def Walker.logged (w : Walker ω σ) : Walker (ω × List (Call ω σ)) σ where
  branches := w.branches
  descend s node b :=
    ((w.descend s.1 node b).1, (w.descend s.1 node b).2, s.2 ++ [.descend s.1 node b])
  leaf s node := (w.leaf s.1 node, s.2 ++ [.leaf s.1 node])

/-- The walk without the list of calls. -/
def Walk.unlogged (walk : Walk (ω × List (Call ω σ)) σ) : Walk ω σ :=
  ⟨walk.stack, walk.stats, walk.state.1⟩

section Logged

variable (w : Walker ω σ) (walk : Walk (ω × List (Call ω σ)) σ)

theorem Walk.unlogged_decideChild (node : Node σ) (b : Nat) :
    (walk.decideChild w.logged node b).unlogged = walk.unlogged.decideChild w node b := by
  simp only [decideChild, Walker.logged, unlogged]
  cases w.descend walk.state.1 node b with
  | mk child state => cases child <;> rfl

theorem Walk.unlogged_expand (node : Node σ) (b : Nat) :
    (walk.expand w.logged node b).unlogged = walk.unlogged.expand w node b := by
  induction b generalizing walk with
  | zero => rfl
  | succ b ih => rw [expand_succ, expand_succ, ih, unlogged_decideChild]

theorem Walk.unlogged_visit (node : Node σ) :
    (walk.visit w.logged node).unlogged = walk.unlogged.visit w node := by
  simp only [visit]
  split
  · rfl
  · exact unlogged_expand w _ node w.branches

/-- Keeping a list of the calls changes nothing else. -/
theorem Walk.unlogged_finish : (walk.finish w.logged).unlogged = walk.unlogged.finish w := by
  fun_induction Walk.finish w.logged walk with
  | case1 walk h =>
      have hempty : walk.unlogged.stack = [] := h
      rw [finish_of_nil w hempty]
  | case2 walk node rest h ih =>
      have hstack : walk.unlogged.stack = node :: rest := h
      rw [ih, unlogged_visit, finish_of_cons w hstack]
      rfl

end Logged

/-- As many leaves are counted as there are calls for leaves. -/
theorem leaves_eq_countP_of_next {w : Walker ω σ} {m m' : Moment (ω × List (Call ω σ)) σ}
    (h : m.walk.stats.leaves = m.walk.state.2.countP Call.isLeaf)
    (hm' : next w.logged m = some m') :
    m'.walk.stats.leaves = m'.walk.state.2.countP Call.isLeaf := by
  rcases next_cases hm' with ⟨node, b, hm, rfl⟩ | ⟨node, hm, rfl⟩ | ⟨node, rest, hm, hs, hd, rfl⟩ |
    ⟨node, rest, hm, hs, hd, rfl⟩
  · rcases Walk.decideChild_cases w.logged node b m.walk with ⟨child, hc⟩ | hc
    all_goals
      rw [hc]
      simp [Walker.logged, Call.isLeaf, h]
  · exact h
  · rw [Walk.visit_of_leaf hd]
    simp [Walker.logged, Call.isLeaf, h]
  · exact h

/-! ## A whole walk -/

section Whole

variable (n : Nat) (w : Walker ω σ) (root : σ) (s : ω)

/-- The first moment of a walk. -/
def firstMoment : Moment ω σ := ⟨Walk.start n root s, none⟩

theorem bounded_firstMoment : (firstMoment n root s).Bounded n w.branches where
  stack := ⟨le_rfl, Nat.zero_le _, trivial⟩
  opened := by rintro _ _ ⟨⟩

theorem counted_firstMoment : (firstMoment n root s).Counted w.branches where
  leaves_le := le_rfl
  count := rfl

theorem reaches_finish :
    Reaches (next w) (firstMoment n root s) ⟨(Walk.start n root s).finish w, none⟩ :=
  (StateTransition.mem_eval.mp (mem_eval_finish w _)).1

theorem stats_walk_logged : (walk n w.logged root (s, [])).2 = (walk n w root s).2 :=
  congrArg Walk.stats (Walk.unlogged_finish w (Walk.start n root (s, [])))

/-- The recursive visit does the same whether its calls are kept or not. -/
theorem visitTree_logged :
    (visitTree w.logged n ⟨n, 0, root⟩ (s, [])).1 = visitTree w n ⟨n, 0, root⟩ s := by
  rw [← walk_state, ← walk_state]
  exact congrArg Walk.state (Walk.unlogged_finish w (Walk.start n root (s, [])))

/-- As many leaves are counted as there are calls for leaves. -/
theorem leaves_walk :
    (walk n w root s).2.leaves
      = (visitTree w.logged n ⟨n, 0, root⟩ (s, [])).2.countP Call.isLeaf := by
  rw [← stats_walk_logged, ← walk_state]
  exact preserved_of_reaches
    (P := fun m => m.walk.stats.leaves = m.walk.state.2.countP Call.isLeaf)
    (fun _ _ => leaves_eq_countP_of_next) (reaches_finish n w.logged root (s, [])) rfl

/-- **A walk makes the calls of the recursive visit, one after another.** Its steps come to an end,
    with the state and the counts that the walk returns. With the calls kept in a list, they are
    those of the recursive visit of the root, in the same order and in the same states. At no moment
    is the stack higher than its capacity. Whatever was visited or left out is the root or a child
    of a node that is no leaf, and as many leaves are counted as there are calls for leaves. -/
theorem walk_eq_visitTree :
    (∃ done : Walk ω σ, ⟨done, none⟩ ∈ StateTransition.eval (next w) (firstMoment n root s) ∧
      walk n w root s = (done.state, done.stats)) ∧
    (walk n w root s).1 = visitTree w n ⟨n, 0, root⟩ s ∧
    walk n w.logged root (s, [])
      = (visitTree w.logged n ⟨n, 0, root⟩ (s, []), (walk n w root s).2) ∧
    (visitTree w.logged n ⟨n, 0, root⟩ (s, [])).1 = visitTree w n ⟨n, 0, root⟩ s ∧
    (∀ m, Reaches (next w) (firstMoment n root s) m →
      m.walk.stack.length ≤ Stack.capacity n w.branches) ∧
    (walk n w root s).2.leaves ≤ (walk n w root s).2.visited ∧
    (walk n w root s).2.visited + (walk n w root s).2.pruned
      = 1 + w.branches * ((walk n w root s).2.visited - (walk n w root s).2.leaves) ∧
    (walk n w root s).2.leaves
      = (visitTree w.logged n ⟨n, 0, root⟩ (s, [])).2.countP Call.isLeaf := by
  have hcounted : Moment.Counted w.branches ⟨(Walk.start n root s).finish w, none⟩ :=
    preserved_of_reaches (fun _ _ h => h.next) (reaches_finish n w root s)
      (counted_firstMoment n w root s)
  have hcount := hcounted.count
  simp only [Walk.finish_stack, Moment.left, Option.elim_none, List.length_nil] at hcount
  refine ⟨⟨_, mem_eval_finish w _, rfl⟩, walk_state n w root s, ?_, visitTree_logged n w root s,
    fun m hm => ?_, hcounted.leaves_le, hcount, leaves_walk n w root s⟩
  · exact Prod.ext (walk_state n w.logged root _) (stats_walk_logged n w root s)
  · have hbounded : m.Bounded n w.branches :=
      preserved_of_reaches (fun _ _ h => h.next) hm (bounded_firstMoment n w root s)
    exact hbounded.stack.length_le

end Whole

/-- A walk over the four blades of the plane. After seven steps both children of the first child of
    the root are on the stack, on top of the other child of the root, which is as high as it
    gets. -/
theorem walk_eq_visitTree_plane :
    let w : Walker (List Nat) Unit :=
      ⟨2, fun s _ _ => (some (), s), fun s node => s ++ [node.blade]⟩
    let m : Moment (List Nat) Unit :=
      ⟨⟨[⟨0, 0, ()⟩, ⟨0, 1, ()⟩, ⟨1, 2, ()⟩], ⟨2, 0, 0⟩, []⟩, some (⟨1, 0, ()⟩, 0)⟩
    (walk 2 w () []).1 = [0, 1, 2, 3] ∧ (walk 2 w () []).2.leaves = 4 ∧
    Reaches (next w) (firstMoment 2 () []) m ∧
      m.walk.stack.length = 3 ∧ m.walk.stack.length ≤ Stack.capacity 2 2 := by
  intro w m
  obtain ⟨-, hstate, -, -, hstack, -, -, hleaves⟩ := walk_eq_visitTree 2 w () []
  have hsteps : Reaches (next w) (firstMoment 2 () []) m := by
    iterate 7 refine Relation.ReflTransGen.head rfl ?_
    exact Relation.ReflTransGen.refl
  refine ⟨?_, ?_, hsteps, rfl, hstack m hsteps⟩
  · rw [hstate]
    rfl
  · rw [hleaves]
    rfl

end BladeTree

end GeometricAlgebra
