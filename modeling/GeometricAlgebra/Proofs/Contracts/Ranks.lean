import GeometricAlgebra.Proofs.Multivector.Updates

set_option autoImplicit false

/-! # Contracts on ranks and words

Some helpers answer only what they may be asked: a binomial coefficient is for at most 64 vectors, a
word of 64 bits is shifted by less than 64, a list has an entry only within its length, a query goes
from a first to a last key, and a rank becomes a blade only if the grade has that many blades. What
they give otherwise nobody should rely on.

In this namespace every such call is guarded: a broken contract gives `none`, and with it everything
that made the call. Guarded functions make the calls that their plain counterparts stand for, so the
theorem about one of them, `f_eq`, says both that **no contract is broken** and that guards change
nothing. Here are the guards, ranks, the range check and the choice of a form. The range check asks
nothing of a multivector (`validate_eq`): it looks a rank up in the largest algebra before it turns
it into a blade. What comes after it relies on it. -/

namespace GeometricAlgebra

open Blade

/-- Gives nothing where a contract is broken; otherwise it fails or has a result. -/
abbrev Guarded (β : Type) := ExceptT Error Option β

namespace Guarded

variable {α β γ : Type}

/-! ## Guards -/

/-- A word of 64 bits is shifted by less than 64. Shifts by one need no guard. -/
def bit (i : Nat) : Option Nat := if i < maxDimension then some (1 <<< i) else none

/-- A binomial coefficient is for at most 64 vectors. -/
def choose (n k : Nat) : Option Nat := if n ≤ maxDimension then some (binomial n k) else none

theorem bit_eq {i : Nat} (h : i < maxDimension) : bit i = some (ofVector i) := if_pos h

theorem choose_eq {n : Nat} (h : n ≤ maxDimension) (k : Nat) : choose n k = some (binomial n k) :=
  if_pos h

/-- The blade of the first vectors; a shift by all bits of the word is left out. -/
def firstVectors (n : Nat) : Option Nat :=
  if n ≥ maxDimension then some (1 <<< maxDimension - 1) else do return (← bit n) - 1

theorem firstVectors_eq (n : Nat) : firstVectors n = some (Blade.firstVectors n) := by
  rw [firstVectors, Blade.firstVectors]
  split
  · next h => rw [min_eq_right h]
  · next h =>
      rw [not_le] at h
      rw [bit_eq h, min_eq_left h.le]
      rfl

/-! ## Failures -/

/-- A computation that calls nothing with a contract. -/
def ofExcept (x : Except Error β) : Guarded β := ExceptT.mk (some x)

/-- What follows a success is guarded where it follows. -/
theorem bind_eq {x : Guarded β} {y : Except Error β} {f : β → Guarded γ} {g : β → Except Error γ}
    (hx : x = ofExcept y) (hf : ∀ b, y = .ok b → f b = ofExcept (g b)) :
    (x >>= f) = ofExcept (y >>= g) := by
  subst hx
  cases y with
  | error e => rfl
  | ok b => exact hf b rfl

theorem lift_eq {x : Option β} {b : β} (hx : x = some b) :
    (liftM x : Guarded β) = ofExcept (.ok b) := by
  subst hx
  rfl

/-- A call that keeps its contract can be left out of sight. -/
theorem lift_bind {x : Option β} {b : β} (hx : x = some b) (f : β → Guarded γ) :
    ((liftM x : Guarded β) >>= f) = f b := by
  subst hx
  rfl

theorem forM_eq {l : List β} {f : β → Guarded Unit} {g : β → Except Error Unit}
    (h : ∀ x ∈ l, f x = ofExcept (g x)) : l.forM f = ofExcept (l.forM g) := by
  induction l with
  | nil => rfl
  | cons x l ih =>
      exact bind_eq (h x List.mem_cons_self) fun _ _ =>
        ih fun y hy => h y (List.mem_cons_of_mem x hy)

theorem foldlM_eq {l : List β} {f : γ → β → Guarded γ} {g : γ → β → Except Error γ}
    (h : ∀ x ∈ l, ∀ c, f c x = ofExcept (g c x)) (c : γ) :
    l.foldlM f c = ofExcept (l.foldlM g c) := by
  induction l generalizing c with
  | nil => rfl
  | cons x l ih =>
      rw [List.foldlM_cons, List.foldlM_cons]
      exact bind_eq (h x List.mem_cons_self c) fun d _ =>
        ih (fun y hy => h y (List.mem_cons_of_mem x hy)) d

theorem mapM_eq {l : List β} {f : β → Option γ} {g : β → γ} (h : ∀ x ∈ l, f x = some (g x)) :
    l.mapM f = some (l.map g) := by
  induction l with
  | nil => rfl
  | cons x l ih =>
      rw [List.mapM_cons, h x List.mem_cons_self, ih fun y hy => h y (List.mem_cons_of_mem x hy)]
      rfl

theorem allM_eq {l : List β} {f : β → Option Bool} {g : β → Bool}
    (h : ∀ x ∈ l, f x = some (g x)) : l.allM f = some (l.all g) := by
  induction l with
  | nil => rfl
  | cons x l ih =>
      rw [List.allM, h x List.mem_cons_self, List.all_cons]
      cases g x with
      | false => rfl
      | true => exact ih fun y hy => h y (List.mem_cons_of_mem x hy)

/-! ## Ranks and blades -/

def rankOf : Nat → List Nat → Option Nat
  | _, [] => some 0
  | j, c :: cs => do return (← choose c j) + (← rankOf (j + 1) cs)

def rank (b : Nat) : Option Nat := rankOf 1 (vectors b)

def topVector (j r c : Nat) : Option Nat :=
  if c + 1 < maxDimension then do
    if (← choose (c + 1) j) ≤ r then topVector j r (c + 1) else return c
  else some c
termination_by maxDimension - c

def unrankFrom : Nat → Nat → Option Nat
  | 0, _ => some 0
  | j + 1, r => do
    let c ← topVector (j + 1) r j
    return (← bit c) ||| (← unrankFrom j (r - (← choose c (j + 1))))

/-- A rank becomes a blade if some algebra has that many blades of the grade. -/
def unrank (g r : Nat) : Option Nat :=
  if g ≤ maxDimension ∧ r < Nat.choose maxDimension g then unrankFrom g r else none

theorem rankOf_eq {l : List Nat} (hl : ∀ c ∈ l, c < maxDimension) (j : Nat) :
    rankOf j l = some (Blade.rankOf j l) := by
  induction l generalizing j with
  | nil => rfl
  | cons c cs ih =>
      rw [rankOf, choose_eq (hl c List.mem_cons_self).le,
        ih fun c hc => hl c (List.mem_cons_of_mem _ hc)]
      rfl

/-- The vectors of a 64-bit word are below 64. -/
theorem rank_eq {b : Nat} (hb : b < 2 ^ maxDimension) : rank b = some (Blade.rank b) := by
  refine rankOf_eq (fun c hc => lt_two_pow_iff.mp hb c ?_) 1
  rwa [vectorSet, List.mem_toFinset]

theorem topVector_eq (j r : Nat) {c : Nat} (hc : c < maxDimension) :
    topVector j r c = some (Blade.topVector j r c) ∧ Blade.topVector j r c < maxDimension := by
  fun_induction Blade.topVector j r c with
  | case1 c h ih =>
      obtain ⟨heq, hlt⟩ := ih h.1
      rw [topVector, if_pos h.1, choose_eq h.1.le]
      exact ⟨(if_pos h.2).trans heq, hlt⟩
  | case2 c h =>
      rw [topVector]
      refine ⟨?_, hc⟩
      split
      · next hlt =>
          rw [choose_eq hlt.le]
          exact if_neg fun hle => h ⟨hlt, hle⟩
      · rfl

theorem unrankFrom_eq {g : Nat} (hg : g ≤ maxDimension) (r : Nat) :
    unrankFrom g r = some (Blade.unrank g r) := by
  induction g generalizing r with
  | zero => rfl
  | succ j ih =>
      obtain ⟨htop, hlt⟩ := topVector_eq (j + 1) r hg
      simp only [unrankFrom, htop, Option.bind_eq_bind, Option.bind_some, bit_eq hlt,
        choose_eq hlt.le, ih (Nat.le_of_succ_le hg)]
      rfl

theorem unrank_eq {g r : Nat} (hr : r < Nat.choose maxDimension g) :
    unrank g r = some (Blade.unrank g r) := by
  have hg : g ≤ maxDimension := by
    by_contra hg
    rw [Nat.choose_eq_zero_of_lt (not_le.mp hg)] at hr
    exact absurd hr (Nat.not_lt_zero r)
  rw [unrank, if_pos ⟨hg, hr⟩, unrankFrom_eq hg]

/-! ## The range check -/

def validateRanks (n g : Nat) (terms : Terms α) : Guarded Unit :=
  match terms.maxKey? with
  | none => return ()
  | some last => do
    if last < (← choose n g) then return ()
    else if g > maxDimension then throw (.unreachableIndex g last)
    else if last ≥ (← choose maxDimension g) then throw (.unreachableIndex g last)
    else throw (.dimensionMismatch n (requiredDimension (← unrank g last)))

def validate (n : Nat) (mv : Multivector α) : Guarded Unit := do
  ofExcept (validateDimension n)
  match mv with
  | .scalar _ => return ()
  | .kvector g terms => validateRanks n g terms
  | .graded grades => grades.toList.forM fun g => validateRanks n g.1 g.2
  | .sparse terms =>
    match terms.maxKey? with
    | none => return ()
    | some last =>
      if requiredDimension last > n then throw (.dimensionMismatch n (requiredDimension last))
      else return ()

/-- A rank is turned into a blade only if the largest algebra has it. -/
theorem validateRanks_eq {n : Nat} (hn : n ≤ maxDimension) (g : Nat) (terms : Terms α) :
    validateRanks n g terms = ofExcept (Multivector.validateRanks n g terms) := by
  rw [validateRanks, Multivector.validateRanks]
  cases terms.maxKey? with
  | none => rfl
  | some last =>
      simp only [lift_bind (choose_eq hn g)]
      by_cases hlast : last < binomial n g
      · rw [if_pos hlast, if_pos hlast]
        rfl
      · rw [if_neg hlast, if_neg hlast]
        by_cases hg : g > maxDimension
        · rw [if_pos hg, if_pos (Or.inl hg)]
          rfl
        · rw [if_neg hg, lift_bind (choose_eq le_rfl g)]
          by_cases hmax : last ≥ binomial maxDimension g
          · rw [if_pos hmax, if_pos (Or.inr hmax)]
            rfl
          · have hr : last < Nat.choose maxDimension g := by
              rwa [← binomial_eq_choose g le_rfl, ← not_le]
            rw [if_neg hmax, if_neg (not_or.mpr ⟨hg, hmax⟩), lift_bind (unrank_eq hr)]
            rfl

/-- **The range check keeps every contract, whatever it is given.** -/
theorem validate_eq (n : Nat) (mv : Multivector α) :
    validate n mv = ofExcept (mv.validate n) := by
  rw [validate.eq_def, Multivector.validate.eq_def]
  refine bind_eq rfl fun _ hdimension => ?_
  have hn := Multivector.validateDimension_eq_ok_iff.mp hdimension
  cases mv with
  | scalar value => rfl
  | kvector g terms => exact validateRanks_eq hn g terms
  | graded grades => exact forM_eq fun g _ => validateRanks_eq hn g.1 g.2
  | sparse terms =>
      simp only
      cases terms.maxKey? with
      | none => rfl
      | some last =>
          simp only
          split <;> rfl

def checked (n : Nat) (mv : Multivector α) : Guarded (Multivector α) := do
  validate n mv
  return mv

theorem checked_eq (n : Nat) (mv : Multivector α) : checked n mv = ofExcept (mv.checked n) :=
  bind_eq (validate_eq n mv) fun _ _ => rfl

/-! ## The terms of a multivector that passed it -/

def gradeTerms (g : Nat) (terms : Terms α) : Option (List (Nat × α)) :=
  terms.toList.mapM fun t => do return (← unrank g t.1, t.2)

def terms : Multivector α → Option (List (Nat × α))
  | .scalar value => some [(0, value)]
  | .kvector g terms => gradeTerms g terms
  | .graded grades => do return (← grades.toList.mapM fun g => gradeTerms g.1 g.2).flatten
  | .sparse terms => some terms.toList

def toTerms (mv : Multivector α) : Option (Terms α) := do return .ofList (← terms mv)

theorem gradeTerms_eq {n g : Nat} (hn : n ≤ maxDimension) {terms : Terms α}
    (h : ∀ r ∈ terms, r < n.choose g) :
    gradeTerms g terms = some (Multivector.gradeTerms g terms) := by
  refine mapM_eq fun t ht => ?_
  have hr := (h t.1 (Terms.mem_of_mem_toList ht)).trans_le (Nat.choose_le_choose g hn)
  rw [unrank_eq hr]
  rfl

theorem terms_eq {n : Nat} (hn : n ≤ maxDimension) {mv : Multivector α} (h : mv.InRange n) :
    terms mv = some mv.terms := by
  cases mv with
  | scalar value => rfl
  | kvector g ts => exact gradeTerms_eq hn h
  | graded grades =>
      have hgrades : (grades.toList.mapM fun g => gradeTerms g.1 g.2)
          = some (grades.toList.map fun g => Multivector.gradeTerms g.1 g.2) :=
        mapM_eq fun g hg =>
          gradeTerms_eq hn (h g.1 g.2 (Std.ExtTreeMap.mem_toList_iff_getElem?_eq_some.mp hg))
      rw [terms, hgrades, Multivector.terms, List.flatMap_def]
      rfl
  | sparse ts => rfl

theorem toTerms_eq {n : Nat} (hn : n ≤ maxDimension) {mv : Multivector α} (h : mv.InRange n) :
    toTerms mv = some mv.toTerms := by
  rw [toTerms, terms_eq hn h]
  rfl

/-- The coefficient of a blade, if there is one. The blade is ranked, so nothing is asked of the
    multivector. -/
def get? (mv : Multivector α) (b : Nat) : Option (Option α) :=
  match mv with
  | .scalar value => some (if b = 0 then some value else none)
  | .kvector g terms => if grade b = g then do return terms[← rank b]? else some none
  | .graded grades =>
    match grades[grade b]? with
    | some terms => do return terms[← rank b]?
    | none => some none
  | .sparse terms => some terms[b]?

theorem get?_eq (mv : Multivector α) {b : Nat} (hb : b < 2 ^ maxDimension) :
    get? mv b = some (mv.get? b) := by
  cases mv with
  | scalar value => rfl
  | kvector g terms =>
      rw [get?, Multivector.get?, rank_eq hb]
      split <;> rfl
  | graded grades =>
      simp only [get?, Multivector.get?, rank_eq hb]
      cases grades[grade b]? <;> rfl
  | sparse terms => rfl

/-! ## Forms -/

def toRanks (t : Terms α) (g : Nat) : Option (Multivector α) := do
  return .ofRanks g (← t.toList.mapM fun s => do return (← rank s.1, s.2))

def toGrades (t : Terms α) : Option (Multivector α) := do
  return .ofGrades (← t.toList.mapM fun s => do return (grade s.1, ← rank s.1, s.2))

def isDense (t : Terms α) : Option Bool :=
  (Multivector.sparse t).grades.allM fun g => do
    return (← choose (requiredDimension (t.maxKeyD 0)) g) ≤ 2 * Terms.gradeCount t g

/-- Whether a grade is dense is asked also where the grades are too few for it to matter. -/
def pack (t : Terms α) : Option (Multivector α) :=
  match t.toList with
  | [] => some .zero
  | [(0, value)] => some (.scalar value)
  | _ =>
    match (Multivector.sparse t).grades with
    | [g] => toRanks t g
    | grades => do
      let dense ← isDense t
      if Terms.minGrades ≤ grades.length && dense then toGrades t else return .sparse t

def compact (S : Scalars α) (t : Terms α) : Option (Multivector α) := pack (Terms.dropZeros S t)

def ofOneGrade (S : Scalars α) (t : Terms α) (k : Nat) : Guarded (Multivector α) :=
  let kept := Terms.dropZeros S t
  match kept.keys.find? (fun b => grade b != k) with
  | some b => throw (.mixedGrade k (grade b))
  | none => toRanks kept k

def ofBlade (b : Nat) (value : α) : Option (Multivector α) :=
  if b = 0 then some (.scalar value) else do return .ofRanks (grade b) [(← rank b, value)]

section Forms

variable {t : Terms α} (ht : t.Within maxDimension)

include ht

theorem toRanks_eq (g : Nat) : toRanks t g = some (Terms.toRanks t g) := by
  have hranks : (t.toList.mapM fun s => do return (← rank s.1, s.2))
      = some (t.toList.map fun s => (Blade.rank s.1, s.2)) := by
    refine mapM_eq fun s hs => ?_
    rw [rank_eq (ht s.1 (Terms.mem_of_mem_toList hs))]
    rfl
  rw [toRanks, hranks]
  rfl

theorem toGrades_eq : toGrades t = some (Terms.toGrades t) := by
  have hranks : (t.toList.mapM fun s => do return (grade s.1, ← rank s.1, s.2))
      = some (t.toList.map fun s => (grade s.1, Blade.rank s.1, s.2)) := by
    refine mapM_eq fun s hs => ?_
    rw [rank_eq (ht s.1 (Terms.mem_of_mem_toList hs))]
    rfl
  rw [toGrades, hranks]
  rfl

theorem isDense_eq : isDense t = some (Terms.isDense t) := by
  refine allM_eq fun g _ => ?_
  have hmax : requiredDimension (t.maxKeyD 0) ≤ maxDimension := by
    rw [Multivector.requiredDimension_le_iff]
    by_cases hempty : t = ∅
    · rw [hempty, Std.ExtTreeMap.maxKeyD_empty]
      exact Nat.two_pow_pos _
    · exact ht _ (Std.ExtTreeMap.maxKeyD_mem hempty)
  rw [choose_eq hmax]
  rfl

theorem pack_eq : pack t = some (Terms.pack t) := by
  have hdense : ∀ grades : List Nat, (do
      let dense ← isDense t
      if Terms.minGrades ≤ grades.length && dense then toGrades t else return .sparse t)
        = some (if Terms.minGrades ≤ grades.length && Terms.isDense t then Terms.toGrades t
          else .sparse t) := by
    intro grades
    rw [isDense_eq ht, Option.bind_eq_bind, Option.bind_some]
    split
    · exact toGrades_eq ht
    · rfl
  have hgrades : (match (Multivector.sparse t).grades with
      | [g] => toRanks t g
      | grades => do
        let dense ← isDense t
        if Terms.minGrades ≤ grades.length && dense then toGrades t else return .sparse t)
      = some (match (Multivector.sparse t).grades with
        | [g] => Terms.toRanks t g
        | grades => if Terms.minGrades ≤ grades.length && Terms.isDense t then Terms.toGrades t
          else .sparse t) := by
    rcases (Multivector.sparse t).grades with _ | ⟨g, _ | ⟨g', rest⟩⟩
    · exact hdense _
    · exact toRanks_eq ht g
    · exact hdense _
  rw [pack, Terms.pack]
  rcases t.toList with _ | ⟨⟨_ | b, v⟩, _ | ⟨s, rest⟩⟩
  · rfl
  · rfl
  all_goals exact hgrades

theorem compact_eq (S : Scalars α) : compact S t = some (Terms.compact S t) := pack_eq ht.dropZeros

theorem ofOneGrade_eq (S : Scalars α) (k : Nat) :
    ofOneGrade S t k = ofExcept (Terms.ofOneGrade S t k) := by
  rw [ofOneGrade, Terms.ofOneGrade]
  cases (Terms.dropZeros S t).keys.find? (fun b => grade b != k) with
  | some b => rfl
  | none => exact lift_eq (toRanks_eq ht.dropZeros k)

end Forms

theorem ofBlade_eq {b : Nat} (hb : b < 2 ^ maxDimension) (value : α) :
    ofBlade b value = some (.ofBlade b value) := by
  rw [ofBlade, Multivector.ofBlade]
  split
  · rfl
  · rw [rank_eq hb]
    rfl

end Guarded

end GeometricAlgebra
