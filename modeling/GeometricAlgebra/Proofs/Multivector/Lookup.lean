import GeometricAlgebra.Proofs.Blade.Order
import GeometricAlgebra.Proofs.Multivector.Forms

set_option autoImplicit false

/-! # All queries tell of the same terms

A multivector can be asked for its terms, for the coefficient of a blade, for its grades, its
largest blade and the dimension it needs. `terms` turns ranks into blades and `get?` blades into
ranks, the range check looks at the largest rank of each grade only, and the forms answer each in
their own way. `Coherent` says that all these answers are about the list `terms`, and
`coherent_of_validate` that they are for every multivector that belongs to some algebra.

The order of the list and the range check both rest on unranking being monotone: within a grade
ranks ascend as blades do, and the ranks below `C(n, g)` are those of the blades below `2 ^ n`. -/

namespace GeometricAlgebra

open Blade

variable {α : Type}

/-! ## Greatest members -/

/-- The last member of an ascending list is the greatest. -/
theorem getLast?_eq_some_iff_isGreatest {l : List Nat} (hl : l.Pairwise (· < ·)) {g : Nat} :
    l.getLast? = some g ↔ IsGreatest {x | x ∈ l} g := by
  have hlast : ∀ {k}, l.getLast? = some k → IsGreatest {x | x ∈ l} k := by
    intro k hk
    obtain ⟨init, rfl⟩ := List.getLast?_eq_some_iff.mp hk
    obtain ⟨-, -, hlt⟩ := List.pairwise_append.mp hl
    refine ⟨by simp, fun x hx => ?_⟩
    rcases List.mem_append.mp hx with hx | hx
    · exact (hlt x hx k (List.mem_singleton_self k)).le
    · exact (List.mem_singleton.mp hx).le
  refine ⟨hlast, fun hg => ?_⟩
  have hk := List.getLast?_eq_some_getLast (List.ne_nil_of_mem hg.1)
  rw [hk, (hlast hk).unique hg]

theorem isGreatest_foldl_max (l : List (Nat × α)) (b : Nat) :
    IsGreatest {c | c = b ∨ ∃ t ∈ l, t.1 = c} (l.foldl (fun b t => max b t.1) b) := by
  induction l generalizing b with
  | nil => exact ⟨Or.inl rfl, by rintro c (rfl | ⟨t, ht, -⟩); exacts [le_rfl, absurd ht (by simp)]⟩
  | cons s l ih =>
      obtain ⟨hmem, hmax⟩ := ih (max b s.1)
      rw [List.foldl_cons]
      constructor
      · rcases hmem with heq | ⟨t, ht, heq⟩
        · rw [heq]
          rcases max_choice b s.1 with h | h
          · exact Or.inl h
          · exact Or.inr ⟨s, List.mem_cons_self, h.symm⟩
        · exact Or.inr ⟨t, List.mem_cons_of_mem s ht, heq⟩
      · have hstart := hmax (Or.inl rfl)
        rintro c (rfl | ⟨t, ht, rfl⟩)
        · exact (le_max_left _ _).trans hstart
        · rcases List.mem_cons.mp ht with rfl | ht
          · exact (le_max_right _ _).trans hstart
          · exact hmax (Or.inr ⟨t, ht, rfl⟩)

namespace Multivector

/-! ## The number of terms -/

theorem size_eq_length_terms (mv : Multivector α) : mv.size = mv.terms.length := by
  cases mv with
  | scalar v => rfl
  | kvector g terms =>
      rw [size, Multivector.terms, gradeTerms, List.length_map, Std.ExtTreeMap.length_toList]
  | graded grades =>
      rw [size, Std.ExtTreeMap.foldl_eq_foldl_toList, Multivector.terms, List.length_flatMap,
        List.sum_eq_foldl, List.foldl_map]
      simp only [gradeTerms, List.length_map, Std.ExtTreeMap.length_toList]
  | sparse terms => exact Std.ExtTreeMap.length_toList.symm

/-! ## The order of terms -/

theorem pairwise_toList (terms : Terms α) : terms.toList.Pairwise fun s t => s.1 < t.1 :=
  Std.ExtTreeMap.ordered_keys_toList.imp Nat.compare_eq_lt.mp

section Order

variable {n : Nat} {mv : Multivector α} (hn : n ≤ maxDimension)

include hn

theorem pairwise_gradeTerms {g : Nat} {terms : Terms α} (h : ∀ r ∈ terms, r < n.choose g) :
    (gradeTerms g terms).Pairwise fun s t => s.1 < t.1 := by
  rw [gradeTerms, List.pairwise_map]
  refine List.Pairwise.imp_of_mem ?_ (pairwise_toList terms)
  intro s t _ ht hlt
  exact unrank_lt_unrank hn (h t.1 (Terms.mem_of_mem_toList ht)) hlt

/-- Where terms are not kept grade by grade, they ascend. -/
theorem pairwise_terms (h : mv.InRange n) (hform : ∀ grades, mv ≠ graded grades) :
    mv.terms.Pairwise fun s t => s.1 < t.1 := by
  cases mv with
  | scalar v => exact List.pairwise_singleton _ _
  | kvector g terms => exact pairwise_gradeTerms hn h
  | graded grades => exact absurd rfl (hform grades)
  | sparse terms => exact pairwise_toList terms

/-- Within a grade the terms ascend. -/
theorem pairwise_terms_of_grade (h : mv.InRange n) :
    mv.terms.Pairwise fun (s t : Nat × α) => grade s.1 = grade t.1 → s.1 < t.1 := by
  cases mv with
  | graded grades =>
      have hrange : ∀ g ∈ grades.toList, ∀ r ∈ g.2, r < n.choose g.1 := fun g hg =>
        h g.1 g.2 (Std.ExtTreeMap.mem_toList_iff_getElem?_eq_some.mp hg)
      rw [terms, List.pairwise_flatMap]
      refine ⟨fun g hg => List.Pairwise.imp ?_ (pairwise_gradeTerms hn (hrange g hg)), ?_⟩
      · exact fun hlt _ => hlt
      -- the terms of two grades are not of one grade
      refine List.Pairwise.imp_of_mem ?_ Std.ExtTreeMap.distinct_keys_toList
      intro g g' hg hg' hne s hs t ht heq
      rw [(lt_of_mem_gradeTerms hn (hrange g hg) hs).2,
        (lt_of_mem_gradeTerms hn (hrange g' hg') ht).2] at heq
      exact absurd (Nat.compare_eq_eq.mpr heq) hne
  | scalar | kvector | sparse =>
      refine List.Pairwise.imp ?_ (pairwise_terms hn h (by simp))
      exact fun hlt _ => hlt

end Order

/-! ## Grades -/

theorem pairwise_grades (mv : Multivector α) : mv.grades.Pairwise (· < ·) := by
  cases mv with
  | scalar v => exact List.pairwise_singleton _ _
  | kvector g terms =>
      rw [grades]
      split
      · exact List.Pairwise.nil
      · exact List.pairwise_singleton _ _
  | graded grades => exact Std.ExtTreeMap.ordered_keys.imp Nat.compare_eq_lt.mp
  | sparse terms => exact Std.ExtTreeSet.ordered_toList.imp Nat.compare_eq_lt.mp

theorem singleGrade?_eq_some_iff {mv : Multivector α} {g : Nat} :
    mv.singleGrade? = some g ↔ mv.grades = [g] := by
  rw [singleGrade?]
  split
  · next h => simp [h]
  · next h => exact iff_of_false (by simp) fun heq => h g heq

/-- An ascending list has one member iff some number is in it and no other is. -/
theorem eq_singleton_iff {l : List Nat} (hl : l.Pairwise (· < ·)) {g : Nat} :
    l = [g] ↔ l ≠ [] ∧ ∀ x ∈ l, x = g := by
  constructor
  · rintro rfl
    exact ⟨List.cons_ne_nil _ _, fun x hx => List.mem_singleton.mp hx⟩
  · rintro ⟨hne, hall⟩
    match l, hne with
    | [x], _ => rw [hall x List.mem_cons_self]
    | x :: y :: rest, _ =>
        have hlt := List.rel_of_pairwise_cons hl List.mem_cons_self
        rw [hall x List.mem_cons_self, hall y (by simp)] at hlt
        exact absurd hlt (lt_irrefl g)

/-! ## The largest blade -/

theorem maxBlade_of_nil {mv : Multivector α} (h : mv.terms = []) : mv.maxBlade = 0 := by
  rw [maxBlade, h, List.foldl_nil]

theorem isGreatest_maxBlade {mv : Multivector α} (h : mv.terms ≠ []) :
    IsGreatest {b | ∃ t ∈ mv.terms, t.1 = b} mv.maxBlade := by
  obtain ⟨hmem, hmax⟩ := isGreatest_foldl_max mv.terms 0
  refine ⟨?_, fun b hb => hmax (Or.inr hb)⟩
  rcases hmem with heq | hmem
  · -- if the fold has not left its start, all blades are the scalar blade
    obtain ⟨t, ht⟩ := List.exists_mem_of_ne_nil _ h
    refine ⟨t, ht, ?_⟩
    have hle := hmax (Or.inr ⟨t, ht, rfl⟩)
    rw [maxBlade]
    omega
  · exact hmem

theorem maxBlade_lt_iff {mv : Multivector α} {m : Nat} (hm : 0 < m) :
    mv.maxBlade < m ↔ ∀ t ∈ mv.terms, t.1 < m := by
  by_cases hnil : mv.terms = []
  · simp [maxBlade_of_nil hnil, hnil, hm]
  · obtain ⟨⟨s, hs, heq⟩, hmax⟩ := isGreatest_maxBlade hnil
    constructor
    · exact fun h t ht => (hmax ⟨t, ht, rfl⟩).trans_lt h
    · exact fun h => heq ▸ h s hs

theorem requiredDimension_le_iff_terms {mv : Multivector α} {d : Nat} :
    mv.requiredDimension ≤ d ↔ ∀ t ∈ mv.terms, t.1 < 2 ^ d := by
  rw [requiredDimension, requiredDimension_le_iff, maxBlade_lt_iff (Nat.two_pow_pos d)]

/-! ## Terms by blade -/

theorem ofList_toList (terms : Terms α) :
    (Std.ExtTreeMap.ofList terms.toList : Terms α) = terms := by
  refine Std.ExtTreeMap.ext_getElem? fun {b} => Option.ext fun v => ?_
  rw [Terms.getElem?_ofList_iff (Terms.nodup_map_fst_toList terms),
    Std.ExtTreeMap.mem_toList_iff_getElem?_eq_some]

theorem toSparse_eq (mv : Multivector α) : mv.toSparse = sparse mv.toTerms := by
  cases mv with
  | sparse terms => rw [toSparse, toTerms, Multivector.terms, ofList_toList]
  | scalar | kvector | graded => rfl

/-! ## All queries -/

/-- All queries of a multivector are answered by its list of terms. -/
structure Coherent (mv : Multivector α) : Prop where
  /-- No blade has two terms. -/
  nodup : (mv.terms.map Prod.fst).Nodup
  /-- Within a grade the terms ascend. -/
  ascending_of_grade :
    mv.terms.Pairwise fun (s t : Nat × α) => grade s.1 = grade t.1 → s.1 < t.1
  /-- In every form but the one by grades all terms ascend. -/
  ascending : (∀ grades, mv ≠ graded grades) → mv.terms.Pairwise fun s t => s.1 < t.1
  get?_iff : ∀ b < 2 ^ maxDimension, ∀ v, mv.get? b = some v ↔ (b, v) ∈ mv.terms
  contains_iff : ∀ b < 2 ^ maxDimension, mv.contains b = true ↔ ∃ v, (b, v) ∈ mv.terms
  size_eq : mv.size = mv.terms.length
  isEmpty_iff : mv.isEmpty = true ↔ mv.terms = []
  /-- The grades are listed in ascending order. -/
  grades_ascending : mv.grades.Pairwise (· < ·)
  mem_grades_iff : ∀ g, g ∈ mv.grades ↔ ∃ t ∈ mv.terms, grade t.1 = g
  maxGrade?_iff : ∀ g, mv.maxGrade? = some g ↔ IsGreatest {k | ∃ t ∈ mv.terms, grade t.1 = k} g
  singleGrade?_iff : ∀ g, mv.singleGrade? = some g ↔
    mv.terms ≠ [] ∧ ∀ t ∈ mv.terms, grade t.1 = g
  maxBlade_eq : mv.terms = [] → mv.maxBlade = 0
  maxBlade_greatest : mv.terms ≠ [] → IsGreatest {b | ∃ t ∈ mv.terms, t.1 = b} mv.maxBlade
  toTerms_iff : ∀ b v, mv.toTerms[b]? = some v ↔ (b, v) ∈ mv.terms
  toSparse_eq : mv.toSparse = sparse mv.toTerms
  requiredDimension_iff : ∀ d, mv.requiredDimension ≤ d ↔ ∀ t ∈ mv.terms, t.1 < 2 ^ d
  validate_iff : ∀ d ≤ maxDimension, mv.validate d = .ok () ↔ ∀ t ∈ mv.terms, t.1 < 2 ^ d

section Coherent

variable {n : Nat} {mv : Multivector α} (hn : n ≤ maxDimension) (h : mv.InRange n)

include hn h

theorem contains_iff_mem {b : Nat} (hb : b < 2 ^ maxDimension) :
    mv.contains b = true ↔ ∃ v, (b, v) ∈ mv.terms := by
  rw [contains, Option.isSome_iff_exists]
  exact exists_congr fun v => get?_eq_some_iff hn h hb

theorem maxGrade?_eq_some_iff {g : Nat} :
    mv.maxGrade? = some g ↔ IsGreatest {k | ∃ t ∈ mv.terms, grade t.1 = k} g := by
  have hset : {k | k ∈ mv.grades} = {k | ∃ t ∈ mv.terms, grade t.1 = k} :=
    Set.ext fun k => mem_grades hn h
  rw [maxGrade?, getLast?_eq_some_iff_isGreatest (pairwise_grades mv), hset]

theorem singleGrade?_eq_some_iff_terms {g : Nat} :
    mv.singleGrade? = some g ↔ mv.terms ≠ [] ∧ ∀ t ∈ mv.terms, grade t.1 = g := by
  rw [singleGrade?_eq_some_iff, eq_singleton_iff (pairwise_grades mv)]
  have hnil : mv.grades ≠ [] ↔ mv.terms ≠ [] := by
    constructor
    · intro hne
      obtain ⟨k, hk⟩ := List.exists_mem_of_ne_nil _ hne
      obtain ⟨t, ht, -⟩ := (mem_grades hn h).mp hk
      exact List.ne_nil_of_mem ht
    · intro hne
      obtain ⟨t, ht⟩ := List.exists_mem_of_ne_nil _ hne
      exact List.ne_nil_of_mem ((mem_grades hn h).mpr ⟨t, ht, rfl⟩)
  refine and_congr hnil ⟨fun hall t ht => hall _ ((mem_grades hn h).mpr ⟨t, ht, rfl⟩), ?_⟩
  intro hall k hk
  obtain ⟨t, ht, rfl⟩ := (mem_grades hn h).mp hk
  exact hall t ht

theorem InRange.coherent : mv.Coherent where
  nodup := nodup_terms hn h
  ascending_of_grade := pairwise_terms_of_grade hn h
  ascending := pairwise_terms hn h
  get?_iff _ hb _ := get?_eq_some_iff hn h hb
  contains_iff _ := contains_iff_mem hn h
  size_eq := size_eq_length_terms mv
  isEmpty_iff := by rw [isEmpty, beq_iff_eq, size_eq_length_terms, List.length_eq_zero_iff]
  grades_ascending := pairwise_grades mv
  mem_grades_iff _ := mem_grades hn h
  maxGrade?_iff _ := maxGrade?_eq_some_iff hn h
  singleGrade?_iff _ := singleGrade?_eq_some_iff_terms hn h
  maxBlade_eq := maxBlade_of_nil
  maxBlade_greatest := isGreatest_maxBlade
  toTerms_iff _ _ := getElem?_toTerms_iff hn h
  toSparse_eq := toSparse_eq mv
  requiredDimension_iff _ := requiredDimension_le_iff_terms
  validate_iff d hd := by rw [validate_eq_ok_iff, and_iff_right hd, inRange_iff hn h hd]

end Coherent

/-! ## One blade -/

/-- A blade with a coefficient is its only term. -/
theorem terms_ofBlade {b : Nat} (hb : b < 2 ^ maxDimension) (v : α) :
    (ofBlade b v).terms = [(b, v)] := by
  rw [ofBlade]
  split
  · next hzero => rw [hzero, terms]
  · have hlist : (Std.ExtTreeMap.ofList [(rank b, v)] : Terms α).toList = [(rank b, v)] := by
      rw [Std.ExtTreeMap.ofList_singleton]
      rfl
    rw [ofRanks, terms, gradeTerms, hlist, List.map_singleton, unrank_rank b hb]

theorem inRange_ofBlade {b n : Nat} (hn : n ≤ maxDimension) (hb : b < 2 ^ n) (v : α) :
    (ofBlade b v).InRange n := by
  rw [ofBlade]
  split
  · trivial
  · intro r hr
    rw [Std.ExtTreeMap.mem_ofList, List.contains_iff_mem] at hr
    rw [List.mem_singleton.mp hr]
    exact rank_lt hn b hb

/-- **All queries tell of the same terms.** This holds of every multivector that the largest algebra
    takes: its blades differ and ascend within each grade, lookup finds exactly the listed terms,
    and number, grades, largest blade, dimension and terms by blade are those of the list. A smaller
    algebra takes the multivector iff it has all its blades, that is, iff it has the dimension that
    the multivector needs. A multivector made of one blade has this one term. -/
theorem coherent_of_validate :
    (∀ mv : Multivector α, mv.validate maxDimension = .ok () → mv.Coherent ∧
      ∀ d ≤ maxDimension, mv.validate d = .ok () ↔ mv.requiredDimension ≤ d) ∧
    ∀ b < 2 ^ maxDimension, ∀ v : α, (ofBlade b v).validate maxDimension = .ok () ∧
      (ofBlade b v).terms = [(b, v)] := by
  refine ⟨fun mv hmv => ?_, fun b hb v => ⟨?_, terms_ofBlade hb v⟩⟩
  · have hcoherent := ((validate_eq_ok_iff _ mv).mp hmv).2.coherent le_rfl
    refine ⟨hcoherent, fun d hd => ?_⟩
    rw [hcoherent.validate_iff d hd, hcoherent.requiredDimension_iff]
  · exact (validate_eq_ok_iff _ _).mpr ⟨le_rfl, inRange_ofBlade le_rfl hb v⟩

/-- Terms by grade, with an empty grade that no algebra has: `3 e₂ + 5 e₀ e₁` needs three vectors,
    and its terms ascend within each grade only. -/
theorem coherent_of_validate_graded :
    let mv : Multivector Int :=
      .graded ((insertGraded (insertGraded ∅ 1 2 3) 2 0 5).insert 70 ∅)
    mv.validate maxDimension = .ok () ∧ mv.terms = [(4, 3), (3, 5)] ∧ mv.Coherent ∧
      mv.requiredDimension = 3 ∧ mv.validate 3 = .ok () ∧ ¬ mv.validate 2 = .ok () ∧
      (ofBlade 6 (7 : Int)).terms = [(6, 7)] := by
  intro mv
  have hmv : mv.validate maxDimension = .ok () := by cbv
  obtain ⟨hcoherent, hvalidate⟩ := coherent_of_validate.1 mv hmv
  have hdimension : mv.requiredDimension = 3 := by cbv
  refine ⟨hmv, by cbv, hcoherent, hdimension, ?_, ?_, ?_⟩
  · exact (hvalidate 3 (by decide)).mpr hdimension.le
  · rw [hvalidate 2 (by decide), hdimension]
    decide
  · exact (coherent_of_validate.2 6 (by decide) 7).2

end Multivector

end GeometricAlgebra
