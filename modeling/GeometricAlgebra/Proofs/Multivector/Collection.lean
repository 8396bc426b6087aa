import GeometricAlgebra.Proofs.Multivector.Lookup
import GeometricAlgebra.Proofs.Multivector.Sums

set_option autoImplicit false

/-! # Collections denote families of coefficients

A collection of terms is filled step by step and then given a form. Where scalars form a ring in
which only zero counts as zero, all that matters of it is a family of coefficients: a blade that was
never named, one that was set to zero and one whose terms cancelled are the same.

Every update of a collection is an update of such a family, `Update.onCoeffs`, and **an update keeps
the two in step** (`Denotes.apply`), so a run of updates does (`Denotes.run`). From the family alone
it is known what each form holds: the coefficients that are not zero, each once (`Finishes`). -/

namespace GeometricAlgebra

open Blade

variable {α : Type}

namespace Terms

/-! ## Updates -/

/-- An update of a collection. -/
inductive Update (α : Type) where
  | set (b : Nat) (value : α)
  | add (b : Nat) (value : α)
  | subtract (b : Nat) (value : α)
  | addSigned (b : Nat) (sign : Int) (value : α)
  | addAll (mv : Multivector α)
  | subtractAll (mv : Multivector α)
  | addScaled (mv : Multivector α) (factor : α)
  | addScaledTerms (added : Terms α) (factor : α)
  | map (f : Nat → α → α)
  | dropZeros

/-- What an update does to a collection. -/
def Update.apply (S : Scalars α) : Update α → Terms α → Terms α
  | set b value, t => t.insert b value
  | add b value, t => Terms.add S t b value
  | subtract b value, t => Terms.subtract S t b value
  | addSigned b sign value, t => Terms.addSigned S t b sign value
  | addAll mv, t => Terms.addAll S t mv
  | subtractAll mv, t => Terms.subtractAll S t mv
  | addScaled mv factor, t => Terms.addScaled S t mv.terms factor
  | addScaledTerms added factor, t => Terms.addScaled S t added.toList factor
  | map f, t => Std.ExtTreeMap.map f t
  | dropZeros, t => Terms.dropZeros S t

/-- What a collection is filled from. -/
inductive Start (α : Type) where
  | empty
  | multivector (mv : Multivector α)
  | terms (t : Terms α)

def Start.collection : Start α → Terms α
  | empty => ∅
  | multivector mv => mv.toTerms
  | terms t => t

/-- The collection after the updates. -/
def run (S : Scalars α) (start : Start α) (updates : List (Update α)) : Terms α :=
  updates.foldl (fun t u => u.apply S t) start.collection

/-! ## Updates of families -/

section Denotation

variable [CommRing α]

/-- The sum of the coefficients that a list has for a blade. -/
def sumAt (l : List (Nat × α)) (b : Nat) : α := (l.map fun s => if s.1 = b then s.2 else 0).sum

/-- What an update does to a family of coefficients. -/
def Update.onCoeffs : Update α → (Nat → α) → Nat → α
  | set b value, F => Function.update F b value
  | add b value, F => Function.update F b (F b + value)
  | subtract b value, F => Function.update F b (F b - value)
  | addSigned b sign value, F => Function.update F b (F b + sign * value)
  | addAll mv, F => fun c => F c + sumAt mv.terms c
  | subtractAll mv, F => fun c => F c - sumAt mv.terms c
  | addScaled mv factor, F => fun c => F c + sumAt mv.terms c * factor
  | addScaledTerms added factor, F => fun c => F c + coeff added c * factor
  | map f, F => fun c => f c (F c)
  | dropZeros, F => F

def Start.coeffs : Start α → Nat → α
  | empty => 0
  | multivector mv => mv.coeff
  | terms t => coeff t

/-- The family after the updates. -/
def runOnCoeffs (start : Start α) (updates : List (Update α)) : Nat → α :=
  updates.foldl (fun F u => u.onCoeffs F) start.coeffs

/-- The integers of 32 bits. -/
def IsInt32 (m : Int) : Prop := -2 ^ 31 ≤ m ∧ m < 2 ^ 31

/-- Blades are 64-bit words, signs 32-bit integers, and a map over the coefficients fixes zero. -/
def Update.Admissible : Update α → Prop
  | set b _ | add b _ | subtract b _ => b < 2 ^ maxDimension
  | addSigned b sign _ => b < 2 ^ maxDimension ∧ IsInt32 sign
  | addAll mv | subtractAll mv | addScaled mv _ => ∀ s ∈ mv.terms, s.1 < 2 ^ maxDimension
  | addScaledTerms added _ => Within maxDimension added
  | map f => ∀ b, f b 0 = 0
  | dropZeros => True

def Start.Admissible : Start α → Prop
  | empty => True
  | multivector mv => mv.validate maxDimension = .ok ()
  | terms t => Within maxDimension t

theorem sumAt_toList (t : Terms α) (b : Nat) : sumAt t.toList b = coeff t b :=
  sum_toList_ite_eq t b (g := fun v => v) rfl

/-! ## One step -/

/-- The collection has these coefficients, and no blades but 64-bit words. -/
structure Denotes (t : Terms α) (F : Nat → α) : Prop where
  within : Within maxDimension t
  coeff_eq : ∀ b < 2 ^ maxDimension, coeff t b = F b

/-- Signs are the integers of the ring, and a value is multiplied by them. -/
structure HasSigns (S : Scalars α) : Prop where
  ofInt : ∀ m : Int, IsInt32 m → S.ofInt m = m
  timesSign : ∀ x m, IsInt32 m → S.timesSign x m = S.ofInt m * x

variable {S : Scalars α}

/-- Any sign is added as the integer that it is, not only that of a product of blades. -/
theorem coeff_addSigned_of_hasSigns (hS : S.IsRing) (hsigns : HasSigns S) (t : Terms α) (b c : Nat)
    {s : Int} (hs : IsInt32 s) (v : α) :
    coeff (addSigned S t b s v) c = coeff t c + if b = c then (s : α) * v else 0 := by
  by_cases hunit : s = 0 ∨ s = 1 ∨ s = -1
  · exact coeff_addSigned hS t b c hunit v
  · simp only [not_or] at hunit
    obtain ⟨h0, h1, h2⟩ := hunit
    rw [addSigned, if_neg h0, if_neg h1, if_neg h2, coeff_add hS, hsigns.timesSign v s hs,
      hsigns.ofInt s hs]

theorem coeff_insert (t : Terms α) (b : Nat) (v : α) :
    coeff (t.insert b v) = Function.update (coeff t) b v := by
  funext c
  rw [coeff, Std.ExtTreeMap.getD_insert, Function.update_apply]
  simp only [Nat.compare_eq_eq, eq_comm (a := b), coeff]

theorem coeff_addAll (hS : S.IsRing) (t : Terms α) (mv : Multivector α) (c : Nat) :
    coeff (addAll S t mv) c = coeff t c + sumAt mv.terms c :=
  coeff_foldl (fun s _ u => coeff_add hS u s.1 c s.2) t

theorem coeff_subtractAll (hS : S.IsRing) (t : Terms α) (mv : Multivector α) (c : Nat) :
    coeff (subtractAll S t mv) c = coeff t c - sumAt mv.terms c := by
  have hstep : ∀ s ∈ mv.terms, ∀ u : Terms α,
      coeff (subtract S u s.1 s.2) c = coeff u c + -if s.1 = c then s.2 else 0 := by
    intro s _ u
    rw [coeff_subtract hS, sub_eq_add_neg]
  rw [subtractAll, coeff_foldl hstep, sumAt, sub_eq_add_neg, List.sum_neg, List.map_map]
  rfl

theorem coeff_addScaled_eq (hS : S.IsRing) (t : Terms α) (l : List (Nat × α)) (factor : α)
    (c : Nat) : coeff (addScaled S t l factor) c = coeff t c + sumAt l c * factor := by
  rw [coeff_addScaled hS, sumAt, ← List.sum_map_mul_right]
  simp only [ite_mul, zero_mul]

theorem coeff_map {f : Nat → α → α} (hf : ∀ b, f b 0 = 0) (t : Terms α) (c : Nat) :
    coeff (Std.ExtTreeMap.map f t) c = f c (coeff t c) := by
  rw [coeff_eq_getElem?, Std.ExtTreeMap.getElem?_map, coeff_eq_getElem?]
  cases t[c]? with
  | none => simp [hf]
  | some v => simp

/-! ## Every step -/

variable {t : Terms α} {F : Nat → α}

/-- An update of one blade that adds to its coefficient. -/
theorem Denotes.touch (h : Denotes t F) {b : Nat} {u : Terms α → Terms α} {v : α}
    (hu : Touches b u) (hb : b < 2 ^ maxDimension)
    (hcoeff : ∀ c, coeff (u t) c = coeff t c + if b = c then v else 0) :
    Denotes (u t) (Function.update F b (F b + v)) where
  within := hu.within hb h.within
  coeff_eq c hc := by
    rw [hcoeff, Function.update_apply, h.coeff_eq c hc]
    by_cases hbc : b = c
    · subst hbc
      rw [if_pos rfl, if_pos rfl]
    · rw [if_neg hbc, if_neg (Ne.symm hbc), add_zero]

/-- Updates of the blades of a list, whose effect on the coefficients is known. -/
theorem Denotes.foldl (h : Denotes t F) {step : Terms α → Nat × α → Terms α} {l : List (Nat × α)}
    {G : Nat → α} (hstep : ∀ s, Touches s.1 fun t => step t s)
    (hl : ∀ s ∈ l, s.1 < 2 ^ maxDimension)
    (hcoeff : ∀ b < 2 ^ maxDimension, coeff (l.foldl step t) b = G b) :
    Denotes (l.foldl step t) G where
  within := h.within.foldl fun s hs => ⟨hstep s, hl s hs⟩
  coeff_eq := hcoeff

/-- **An update of a collection is the update of its coefficients.** -/
theorem Denotes.apply (hS : S.IsRing) (hE : S.IsExact) (hsigns : HasSigns S) (h : Denotes t F)
    {u : Update α} (hu : u.Admissible) : Denotes (u.apply S t) (u.onCoeffs F) := by
  cases u with
  | set b v =>
      refine ⟨(touches_insert b v).within hu h.within, fun c hc => ?_⟩
      simp only [Update.apply, Update.onCoeffs, coeff_insert, Function.update_apply,
        h.coeff_eq c hc]
  | add b v => exact h.touch (touches_add S b v) hu fun c => coeff_add hS t b c v
  | subtract b v =>
      simp only [Update.onCoeffs, sub_eq_add_neg]
      refine h.touch (touches_subtract S b v) hu fun c => ?_
      rw [Update.apply, coeff_subtract hS, sub_eq_add_neg, neg_ite, neg_zero]
  | addSigned b s v =>
      exact h.touch (touches_addSigned S b s v) hu.1
        fun c => coeff_addSigned_of_hasSigns hS hsigns t b c hu.2 v
  | addAll mv =>
      refine h.foldl (fun s => touches_add S s.1 s.2) hu fun b hb => ?_
      simp only [Update.onCoeffs, ← h.coeff_eq b hb]
      exact coeff_addAll hS t mv b
  | subtractAll mv =>
      refine h.foldl (fun s => touches_subtract S s.1 s.2) hu fun b hb => ?_
      simp only [Update.onCoeffs, ← h.coeff_eq b hb]
      exact coeff_subtractAll hS t mv b
  | addScaled mv factor =>
      refine h.foldl (fun s => touches_add S s.1 (S.mul s.2 factor)) hu fun b hb => ?_
      simp only [Update.onCoeffs, ← h.coeff_eq b hb]
      exact coeff_addScaled_eq hS t mv.terms factor b
  | addScaledTerms added factor =>
      refine h.foldl (fun s => touches_add S s.1 (S.mul s.2 factor))
        (fun s hs => hu s.1 (mem_of_mem_toList hs)) fun b hb => ?_
      simp only [Update.onCoeffs, ← h.coeff_eq b hb, ← sumAt_toList added]
      exact coeff_addScaled_eq hS t added.toList factor b
  | map f =>
      refine ⟨fun b hb => h.within b (Std.ExtTreeMap.mem_map.mp hb), fun b hb => ?_⟩
      rw [Update.apply, coeff_map hu, h.coeff_eq b hb, Update.onCoeffs]
  | dropZeros =>
      refine ⟨h.within.dropZeros, fun b hb => ?_⟩
      rw [Update.apply, coeff_dropZeros hE, h.coeff_eq b hb, Update.onCoeffs]

theorem Start.denotes {start : Start α} (hstart : start.Admissible) :
    Denotes start.collection start.coeffs := by
  cases start with
  | empty => exact ⟨within_empty, fun b _ => coeff_empty b⟩
  | multivector mv =>
      obtain ⟨-, hrange⟩ := (Multivector.validate_eq_ok_iff _ mv).mp hstart
      refine ⟨within_ofList fun s => Multivector.lt_of_mem_terms le_rfl hrange, fun b hb => ?_⟩
      rw [Start.collection, Multivector.coeff_toTerms le_rfl hrange, if_pos hb, Start.coeffs]
  | terms t => exact ⟨hstart, fun _ _ => rfl⟩

/-- So is a run of updates. -/
theorem Denotes.run (hS : S.IsRing) (hE : S.IsExact) (hsigns : HasSigns S) {start : Start α}
    (hstart : start.Admissible) {updates : List (Update α)}
    (hupdates : ∀ u ∈ updates, u.Admissible) :
    Denotes (run S start updates) (runOnCoeffs start updates) := by
  rw [Terms.run, runOnCoeffs]
  have h := Start.denotes hstart
  generalize start.collection = t at h
  generalize start.coeffs = F at h
  induction updates generalizing t F with
  | nil => exact h
  | cons u rest ih =>
      rw [List.foldl_cons, List.foldl_cons]
      exact ih (fun u hu => hupdates u (List.mem_cons_of_mem _ hu)) _ _
        (h.apply hS hE hsigns (hupdates u List.mem_cons_self))

/-! ## Forms -/

/-- The terms are the coefficients that are not zero, each once. -/
structure Lists (l : List (Nat × α)) (F : Nat → α) : Prop where
  nodup : (l.map Prod.fst).Nodup
  mem_iff : ∀ b v, (b, v) ∈ l ↔ b < 2 ^ maxDimension ∧ v = F b ∧ v ≠ 0

/-- A valid multivector whose terms are the coefficients that are not zero. -/
structure Holds (mv : Multivector α) (F : Nat → α) : Prop where
  validate : mv.validate maxDimension = .ok ()
  lists : Lists mv.terms F

/-- What the forms of a collection hold. -/
structure Finishes (S : Scalars α) (t : Terms α) (F : Nat → α) : Prop where
  dropZeros : Lists (Terms.dropZeros S t).toList F
  sparse : Holds (.sparse (Terms.dropZeros S t)) F
  toGrades : Holds (Terms.toGrades (Terms.dropZeros S t)) F
  compact : Holds (Terms.compact S t) F
  ofOneGrade : ∀ k, (∀ b < 2 ^ maxDimension, F b ≠ 0 → grade b = k) →
    ∃ ranks, Terms.ofOneGrade S t k = .ok (.kvector k ranks) ∧ Holds (.kvector k ranks) F
  ofOneGrade_error : ∀ k, (∃ b < 2 ^ maxDimension, F b ≠ 0 ∧ grade b ≠ k) →
    ∃ e, Terms.ofOneGrade S t k = .error e ∧ e.kind = .invalidArgument
  scalarPart : Terms.scalarPart S t = F 0

/-- Without its zeros, the collection is the coefficients that are not zero. -/
theorem Denotes.getElem?_dropZeros (hE : S.IsExact) (h : Denotes t F) {b : Nat} {v : α} :
    (Terms.dropZeros S t)[b]? = some v ↔ b < 2 ^ maxDimension ∧ v = F b ∧ v ≠ 0 := by
  constructor
  · intro hb
    have hlt := h.within.dropZeros (S := S) b (mem_iff_exists_getElem?.mpr ⟨v, hb⟩)
    obtain ⟨hv, hne⟩ := (getElem?_dropZeros_iff hE.isZero_zero).mp hb
    exact ⟨hlt, hv.trans (h.coeff_eq b hlt), hE.isZero_eq_false_iff.mp hne⟩
  · rintro ⟨hb, hv, hne⟩
    rw [← h.coeff_eq b hb] at hv
    exact (getElem?_dropZeros_iff hE.isZero_zero).mpr ⟨hv, hE.isZero_eq_false_iff.mpr hne⟩

/-- A form that has the terms left without zeros holds the coefficients. -/
theorem Denotes.holds (hE : S.IsExact) (h : Denotes t F) {mv : Multivector α}
    (hspec : mv.InRange maxDimension ∧
      ∀ b v, (b, v) ∈ mv.terms ↔ (Terms.dropZeros S t)[b]? = some v) : Holds mv F where
  validate := (Multivector.validate_eq_ok_iff _ mv).mpr ⟨le_rfl, hspec.1⟩
  lists := ⟨Multivector.nodup_terms le_rfl hspec.1,
    fun b v => (hspec.2 b v).trans (h.getElem?_dropZeros hE)⟩

/-- **From its coefficients it is known what every form of a collection holds.** -/
theorem Denotes.finishes (hS : S.IsRing) (hE : S.IsExact) (h : Denotes t F) : Finishes S t F := by
  have hwithin : Within maxDimension (Terms.dropZeros S t) := h.within.dropZeros
  have hkey : ∀ {b}, b ∈ Terms.dropZeros S t ↔ b < 2 ^ maxDimension ∧ F b ≠ 0 := by
    intro b
    rw [mem_iff_exists_getElem?]
    simp only [h.getElem?_dropZeros hE]
    exact ⟨fun ⟨_, hb, hv, hne⟩ => ⟨hb, hv ▸ hne⟩, fun ⟨hb, hne⟩ => ⟨_, hb, rfl, hne⟩⟩
  have hsparse : Holds (.sparse (Terms.dropZeros S t)) F :=
    h.holds hE ⟨hwithin, fun b v => Std.ExtTreeMap.mem_toList_iff_getElem?_eq_some⟩
  refine ⟨hsparse.lists, hsparse, h.holds hE (toGrades_spec le_rfl hwithin),
    h.holds hE (pack_spec le_rfl hwithin), fun k hgrade => ?_, fun k hother => ?_, ?_⟩
  · have hk : ∀ b ∈ Terms.dropZeros S t, grade b = k := fun b hb =>
      hgrade b (hkey.mp hb).1 (hkey.mp hb).2
    have hfind : (Terms.dropZeros S t).keys.find? (fun b => grade b != k) = none := by
      rw [List.find?_eq_none]
      intro b hb
      simp [hk b (Std.ExtTreeMap.mem_keys.mp hb)]
    refine ⟨_, ?_, h.holds hE (toRanks_spec le_rfl hwithin hk)⟩
    simp only [Terms.ofOneGrade, hfind]
    rfl
  · obtain ⟨b, hb, hne, hbk⟩ := hother
    cases hfind : (Terms.dropZeros S t).keys.find? (fun b => grade b != k) with
    | none =>
        have hk := List.find?_eq_none.mp hfind b (Std.ExtTreeMap.mem_keys.mpr (hkey.mpr ⟨hb, hne⟩))
        simp [hbk] at hk
    | some c =>
        refine ⟨.mixedGrade k (grade c), ?_, rfl⟩
        simp only [Terms.ofOneGrade, hfind]
  · rw [Terms.scalarPart, hS.zero, ← h.coeff_eq 0 (by decide), coeff]

/-- **A collection is its coefficients, whatever updates filled it.** After any updates of any start
    it has the coefficients that the same updates give, and each of its forms holds those that are
    not zero. -/
theorem denotes_and_finishes_run (hS : S.IsRing) (hE : S.IsExact) (hsigns : HasSigns S)
    (start : Start α) (hstart : start.Admissible) (updates : List (Update α))
    (hupdates : ∀ u ∈ updates, u.Admissible) :
    Denotes (run S start updates) (runOnCoeffs start updates) ∧
      Finishes S (run S start updates) (runOnCoeffs start updates) :=
  have h := Denotes.run hS hE hsigns hstart hupdates
  ⟨h, h.finishes hS hE⟩

end Denotation

theorem hasSigns_integers : HasSigns Scalars.integers where
  ofInt _ _ := rfl
  timesSign x m _ := Int.mul_comm x m

/-- A term that cancels, a sign that is none of a product of blades, and a map that keeps zeros. -/
theorem denotes_and_finishes_run_integers :
    let start : Start Int := .multivector (.ofBlade 3 2)
    let updates : List (Update Int) :=
      [.subtract 3 2, .addSigned 4 7 (-1), .set 0 0, .addAll (.ofBlade 8 5), .map fun _ v => 2 * v]
    (start.Admissible ∧ (∀ u ∈ updates, u.Admissible)) ∧
      Finishes Scalars.integers (run Scalars.integers start updates) (runOnCoeffs start updates) ∧
      ((compact Scalars.integers (run Scalars.integers start updates)).terms
        = [(4, -14), (8, 10)]) := by
  intro start updates
  have hstart : start.Admissible :=
    (Multivector.validate_eq_ok_iff _ _).mpr
      ⟨le_rfl, Multivector.inRange_ofBlade le_rfl (by decide) 2⟩
  have hupdates : ∀ u ∈ updates, u.Admissible := by
    simp [updates, Update.Admissible, IsInt32, maxDimension,
      Multivector.terms_ofBlade (b := 8) (by decide) (5 : Int)]
  refine ⟨⟨hstart, hupdates⟩, ?_, by cbv⟩
  exact (denotes_and_finishes_run Scalars.isRing_integers Scalars.isExact_integers
    hasSigns_integers start hstart updates hupdates).2

end Terms

end GeometricAlgebra
