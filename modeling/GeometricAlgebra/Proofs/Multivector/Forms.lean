import GeometricAlgebra.Multivector.Terms
import GeometricAlgebra.Proofs.Multivector.View

set_option autoImplicit false

/-! # Forms hold the terms they are made from

`pack` chooses one of the four forms for a map from blades to coefficients. Whichever it is, the
view of the result is the map again, and the result belongs to every algebra that has all the
blades: `pack_spec`. For the forms with ranks as keys this is because the rank of a blade within its
grade leads back to the blade. -/

namespace GeometricAlgebra

open Blade

variable {α : Type}

/-! ## Terms by grade and rank -/

namespace Multivector

/-- The coefficient stored under a grade and a rank. -/
def lookupGraded (grades : Std.ExtTreeMap Nat (Terms α)) (g r : Nat) : Option α :=
  grades[g]?.bind fun terms => terms[r]?

theorem lookupGraded_insertGraded (grades : Std.ExtTreeMap Nat (Terms α)) (g r g' r' : Nat)
    (v : α) :
    lookupGraded (insertGraded grades g r v) g' r'
      = if g = g' ∧ r = r' then some v else lookupGraded grades g' r' := by
  simp only [lookupGraded, insertGraded, Std.ExtTreeMap.getElem?_insert, Nat.compare_eq_eq]
  by_cases hg : g = g'
  · subst hg
    by_cases hr : r = r'
    · simp [hr]
    · rw [Std.ExtTreeMap.getD_eq_getD_getElem?]
      cases grades[g]? <;> simp [hr, Std.ExtTreeMap.getElem?_insert]
  · simp [hg]

/-- Terms with different grades or ranks are all stored. -/
theorem lookupGraded_foldl {l : List (Nat × Nat × α)}
    (hl : (l.map fun t => (t.1, t.2.1)).Nodup) {g r : Nat} {v : α} :
    lookupGraded (l.foldl (fun grades t => insertGraded grades t.1 t.2.1 t.2.2) ∅) g r = some v
      ↔ (g, r, v) ∈ l := by
  induction l using List.reverseRecOn with
  | nil => simp [lookupGraded]
  | append_singleton l t ih =>
      obtain ⟨g', r', w⟩ := t
      rw [List.map_append, List.nodup_append'] at hl
      obtain ⟨hl, -, hdisjoint⟩ := hl
      rw [List.foldl_append, List.foldl_cons, List.foldl_nil, lookupGraded_insertGraded,
        List.mem_append, List.mem_singleton, ← ih hl]
      by_cases hkey : g' = g ∧ r' = r
      · -- nothing is overwritten, as no earlier term has this grade and rank
        obtain ⟨rfl, rfl⟩ := hkey
        have hnew : lookupGraded
            (l.foldl (fun grades t => insertGraded grades t.1 t.2.1 t.2.2) ∅) g' r' ≠ some v := by
          rw [Ne, ih hl]
          intro hmem
          exact hdisjoint (List.mem_map.mpr ⟨_, hmem, rfl⟩) (List.mem_singleton.mpr rfl)
        simp [hnew, eq_comm]
      · rw [if_neg hkey]
        simp only [Prod.mk.injEq]
        tauto

end Multivector

/-! ## The forms -/

namespace Terms

open Multivector

/-- Grade and rank determine a blade. -/
theorem eq_of_grade_rank {b c : Nat} (hb : b < 2 ^ maxDimension) (hc : c < 2 ^ maxDimension)
    (hg : grade b = grade c) (hr : rank b = rank c) : b = c := by
  rw [← unrank_rank b hb, hg, hr, unrank_rank c hc]

section Forms

variable {n : Nat} {t : Terms α} (hn : n ≤ maxDimension) (ht : ∀ b ∈ t, b < 2 ^ n)

include hn ht

theorem lt_two_pow_maxDimension {b : Nat} (hb : b ∈ t) : b < 2 ^ maxDimension :=
  (ht b hb).trans_le (Nat.pow_le_pow_right (by decide) hn)

/-- The ranks of the blades of one grade lead back to the blades. -/
theorem getElem?_ofList_rank {g : Nat} (hg : ∀ b ∈ t, grade b = g) (r : Nat) (v : α) :
    (Std.ExtTreeMap.ofList (t.toList.map fun s => (rank s.1, s.2)) : Terms α)[r]? = some v
      ↔ ∃ b, t[b]? = some v ∧ rank b = r := by
  have hnodup : ((t.toList.map fun s => (rank s.1, s.2)).map Prod.fst).Nodup := by
    rw [List.map_map]
    refine nodup_map_keys t rank fun b hb c hc hr => ?_
    exact eq_of_grade_rank (lt_two_pow_maxDimension hn ht hb) (lt_two_pow_maxDimension hn ht hc)
      ((hg b hb).trans (hg c hc).symm) hr
  rw [getElem?_ofList_iff hnodup, List.mem_map]
  constructor
  · rintro ⟨s, hs, heq⟩
    cases heq
    exact ⟨s.1, Std.ExtTreeMap.mem_toList_iff_getElem?_eq_some.mp hs, rfl⟩
  · rintro ⟨b, hb, rfl⟩
    exact ⟨(b, v), Std.ExtTreeMap.mem_toList_iff_getElem?_eq_some.mpr hb, rfl⟩

theorem toRanks_spec {g : Nat} (hg : ∀ b ∈ t, grade b = g) :
    (toRanks t g).InRange n ∧ ∀ b v, (b, v) ∈ (toRanks t g).terms ↔ t[b]? = some v := by
  have hlookup := getElem?_ofList_rank hn ht hg
  constructor
  · intro r hr
    obtain ⟨v, hv⟩ := mem_iff_exists_getElem?.mp hr
    obtain ⟨b, hb, rfl⟩ := (hlookup r v).mp hv
    have hbt := mem_iff_exists_getElem?.mpr ⟨v, hb⟩
    rw [← hg b hbt]
    exact rank_lt hn b (ht b hbt)
  · intro b v
    rw [toRanks, ofRanks, Multivector.terms, mem_gradeTerms]
    constructor
    · rintro ⟨r, hr, hrb⟩
      obtain ⟨c, hc, rfl⟩ := (hlookup r v).mp hr
      have hct := mem_iff_exists_getElem?.mpr ⟨v, hc⟩
      rw [← hg c hct, unrank_rank c (lt_two_pow_maxDimension hn ht hct)] at hrb
      rwa [← hrb]
    · intro hb
      have hbt := mem_iff_exists_getElem?.mpr ⟨v, hb⟩
      refine ⟨rank b, (hlookup _ v).mpr ⟨b, hb, rfl⟩, ?_⟩
      rw [← hg b hbt, unrank_rank b (lt_two_pow_maxDimension hn ht hbt)]

theorem lookupGraded_grade_rank (g r : Nat) (v : α) :
    lookupGraded ((t.toList.map fun s => (grade s.1, rank s.1, s.2)).foldl
      (fun grades s => insertGraded grades s.1 s.2.1 s.2.2) ∅) g r = some v
        ↔ ∃ b, t[b]? = some v ∧ grade b = g ∧ rank b = r := by
  have hnodup : ((t.toList.map fun s => (grade s.1, rank s.1, s.2)).map
      fun s => (s.1, s.2.1)).Nodup := by
    rw [List.map_map]
    refine nodup_map_keys t (fun b => (grade b, rank b)) fun b hb c hc heq => ?_
    obtain ⟨hg, hr⟩ := Prod.mk.inj heq
    exact eq_of_grade_rank (lt_two_pow_maxDimension hn ht hb) (lt_two_pow_maxDimension hn ht hc)
      hg hr
  rw [lookupGraded_foldl hnodup, List.mem_map]
  constructor
  · rintro ⟨s, hs, heq⟩
    cases heq
    exact ⟨s.1, Std.ExtTreeMap.mem_toList_iff_getElem?_eq_some.mp hs, rfl, rfl⟩
  · rintro ⟨b, hb, rfl, rfl⟩
    exact ⟨(b, v), Std.ExtTreeMap.mem_toList_iff_getElem?_eq_some.mpr hb, rfl⟩

theorem toGrades_spec :
    (toGrades t).InRange n ∧ ∀ b v, (b, v) ∈ (toGrades t).terms ↔ t[b]? = some v := by
  have hlookup := lookupGraded_grade_rank hn ht
  constructor
  · intro g terms hg r hr
    obtain ⟨v, hv⟩ := mem_iff_exists_getElem?.mp hr
    obtain ⟨b, hb, rfl, rfl⟩ := (hlookup g r v).mp (by rw [lookupGraded, hg]; exact hv)
    exact rank_lt hn b (ht b (mem_iff_exists_getElem?.mpr ⟨v, hb⟩))
  · intro b v
    rw [toGrades, ofGrades, Multivector.terms, List.mem_flatMap]
    constructor
    · rintro ⟨⟨g, terms⟩, hg, hmem⟩
      rw [Std.ExtTreeMap.mem_toList_iff_getElem?_eq_some] at hg
      obtain ⟨r, hr, hrb⟩ := mem_gradeTerms.mp hmem
      obtain ⟨c, hc, rfl, rfl⟩ := (hlookup g r v).mp (by rw [lookupGraded, hg]; exact hr)
      have hct := mem_iff_exists_getElem?.mpr ⟨v, hc⟩
      rw [unrank_rank c (lt_two_pow_maxDimension hn ht hct)] at hrb
      rwa [← hrb]
    · intro hb
      have hbt := mem_iff_exists_getElem?.mpr ⟨v, hb⟩
      obtain ⟨terms, hterms, hr⟩ := Option.bind_eq_some_iff.mp
        ((hlookup (grade b) (rank b) v).mpr ⟨b, hb, rfl, rfl⟩)
      refine ⟨(grade b, terms), Std.ExtTreeMap.mem_toList_iff_getElem?_eq_some.mpr hterms,
        mem_gradeTerms.mpr ⟨rank b, hr, ?_⟩⟩
      exact unrank_rank b (lt_two_pow_maxDimension hn ht hbt)

end Forms

theorem mem_grades_sparse {t : Terms α} {g : Nat} :
    g ∈ (Multivector.sparse t).grades ↔ ∃ b ∈ t, grade b = g := by
  rw [Multivector.grades, Std.ExtTreeSet.mem_toList, Std.ExtTreeSet.mem_ofList,
    List.contains_iff_mem, List.mem_map]
  simp only [Std.ExtTreeMap.mem_keys]

/-- **Whichever form is chosen, it holds the terms it was made from.** -/
theorem pack_spec {n : Nat} {t : Terms α} (hn : n ≤ maxDimension) (ht : ∀ b ∈ t, b < 2 ^ n) :
    (pack t).InRange n ∧ ∀ b v, (b, v) ∈ (pack t).terms ↔ t[b]? = some v := by
  have hmem : ∀ b v, (b, v) ∈ t.toList ↔ t[b]? = some v :=
    fun b v => Std.ExtTreeMap.mem_toList_iff_getElem?_eq_some
  rw [pack]
  split
  · next hnil =>
      refine ⟨fun b hb => by simp at hb, fun b v => ?_⟩
      rw [← hmem, hnil]
      simp [zero, Multivector.terms]
  · next value hscalar =>
      refine ⟨trivial, fun b v => ?_⟩
      rw [← hmem, hscalar]
      rfl
  · split
    · next g hg =>
        refine toRanks_spec hn ht fun b hb => ?_
        have := mem_grades_sparse.mpr ⟨b, hb, rfl⟩
        rw [hg] at this
        exact List.mem_singleton.mp this
    · split
      · exact toGrades_spec hn ht
      · exact ⟨ht, hmem⟩

end Terms

/-! ## Grades -/

namespace Multivector

theorem exists_gradeTerms_iff {n k g : Nat} {terms : Terms α} (hn : n ≤ maxDimension)
    (h : ∀ r ∈ terms, r < n.choose k) :
    (∃ t ∈ gradeTerms k terms, grade t.1 = g) ↔ ¬ terms.isEmpty = true ∧ g = k := by
  have hempty : terms.isEmpty = true ↔ ∀ r, r ∉ terms := by
    rw [Std.ExtTreeMap.isEmpty_iff, Std.ExtTreeMap.eq_empty_iff_forall_not_mem]
  rw [hempty, not_forall_not]
  constructor
  · rintro ⟨t, ht, rfl⟩
    obtain ⟨r, hr, -⟩ := mem_gradeTerms.mp ht
    exact ⟨⟨r, Terms.mem_iff_exists_getElem?.mpr ⟨t.2, hr⟩⟩, (lt_of_mem_gradeTerms hn h ht).2⟩
  · rintro ⟨⟨r, hr⟩, rfl⟩
    obtain ⟨v, hv⟩ := Terms.mem_iff_exists_getElem?.mp hr
    exact ⟨(unrank g r, v), mem_gradeTerms.mpr ⟨r, hv, rfl⟩, grade_unrank hn (h r hr)⟩

/-- The grades of a multivector are those of its terms. -/
theorem mem_grades {n : Nat} {mv : Multivector α} (hn : n ≤ maxDimension) (h : mv.InRange n)
    {g : Nat} : g ∈ mv.grades ↔ ∃ t ∈ mv.terms, grade t.1 = g := by
  cases mv with
  | scalar v =>
      have hzero : Blade.grade 0 = 0 := by simp [Blade.grade]
      simp [grades, terms, hzero, eq_comm]
  | kvector k terms =>
      rw [grades, Multivector.terms, exists_gradeTerms_iff hn h]
      split
      · next hempty => simp [hempty]
      · next hempty => simp [hempty]
  | graded grades =>
      have hlookup : g ∈ (Multivector.graded grades).grades
          ↔ ∃ terms, grades[g]? = some terms ∧ ¬ terms.isEmpty = true := by
        rw [Multivector.grades, Std.ExtTreeMap.mem_keys, Std.ExtTreeMap.mem_iff_isSome_getElem?,
          Std.ExtTreeMap.getElem?_filter']
        cases grades[g]? <;> simp
      rw [hlookup, Multivector.terms]
      constructor
      · rintro ⟨terms, hg, hne⟩
        obtain ⟨t, ht, hgrade⟩ := (exists_gradeTerms_iff hn (h g terms hg)).mpr ⟨hne, rfl⟩
        have hmem := Std.ExtTreeMap.mem_toList_iff_getElem?_eq_some.mpr hg
        exact ⟨t, List.mem_flatMap.mpr ⟨_, hmem, ht⟩, hgrade⟩
      · rintro ⟨t, ht, hgrade⟩
        obtain ⟨⟨k, terms⟩, hmem, ht⟩ := List.mem_flatMap.mp ht
        have hk := Std.ExtTreeMap.mem_toList_iff_getElem?_eq_some.mp hmem
        obtain ⟨hne, rfl⟩ := (exists_gradeTerms_iff hn (h k terms hk)).mp ⟨t, ht, hgrade⟩
        exact ⟨terms, hk, hne⟩
  | sparse terms =>
      rw [Terms.mem_grades_sparse]
      constructor
      · rintro ⟨b, hb, hg⟩
        obtain ⟨v, hv⟩ := Terms.mem_iff_exists_getElem?.mp hb
        exact ⟨(b, v), Std.ExtTreeMap.mem_toList_iff_getElem?_eq_some.mpr hv, hg⟩
      · rintro ⟨t, ht, hg⟩
        exact ⟨t.1, Terms.mem_of_mem_toList ht, hg⟩

end Multivector

end GeometricAlgebra
