import GeometricAlgebra.Proofs.Multivector.Lookup

set_option autoImplicit false

/-! # Which dimension a refusal reports

An algebra that is too small for a multivector refuses it and reports a dimension that it would
need. Terms by blade report the dimension of the largest blade, so that of the whole multivector.
Terms by rank are checked grade by grade, and of each grade the largest rank alone: within a grade
it is the rank of the largest blade, so it tells what the grade needs (`validateRanks_eq_error`).
Grades are checked in ascending order and the first one that does not fit is reported, though a
higher one may need more (`validate_graded_eq_error`). -/

namespace GeometricAlgebra

open Blade

/-- Of checks in sequence the first one that fails is reported. -/
theorem exists_of_forM_eq_error {ε β : Type} {l : List β} {f : β → Except ε Unit} {e : ε}
    (h : l.forM f = .error e) :
    ∃ before x after, l = before ++ x :: after ∧ (∀ y ∈ before, f y = .ok ()) ∧ f x = .error e := by
  induction l with
  | nil => cases h
  | cons x l ih =>
      rw [List.forM_eq_forM, List.forM_cons] at h
      cases hx : f x with
      | error e' =>
          rw [hx] at h
          cases h
          exact ⟨[], x, l, rfl, by simp, hx⟩
      | ok =>
          rw [hx] at h
          obtain ⟨before, y, after, rfl, hbefore, hy⟩ := ih h
          exact ⟨x :: before, y, after, rfl, List.forall_mem_cons.mpr ⟨hx, hbefore⟩, hy⟩

variable {α : Type}

namespace Blade

theorem requiredDimension_mono {b c : Nat} (h : b ≤ c) :
    requiredDimension b ≤ requiredDimension c :=
  Multivector.requiredDimension_le_iff.mpr
    (h.trans_lt (Multivector.requiredDimension_le_iff.mp le_rfl))

theorem lt_requiredDimension_iff {b d : Nat} : d < requiredDimension b ↔ 2 ^ d ≤ b := by
  rw [← not_le, Multivector.requiredDimension_le_iff, not_lt]

end Blade

namespace Multivector

/-- The terms are kept grade by grade. -/
def IsGraded (mv : Multivector α) : Prop := ∃ grades, mv = graded grades

theorem not_isGraded_sparse (terms : Terms α) : ¬ (sparse terms).IsGraded := by
  rintro ⟨grades, h⟩
  cases h

theorem not_isGraded_kvector (g : Nat) (terms : Terms α) : ¬ (kvector g terms).IsGraded := by
  rintro ⟨grades, h⟩
  cases h

/-! ## The dimension that terms need -/

/-- The dimension `m` is the least one of an algebra that has the blades of all these terms, of
    which there are some. -/
def Needs (terms : List (Nat × α)) (m : Nat) : Prop :=
  IsGreatest {k | ∃ t ∈ terms, Blade.requiredDimension t.1 = k} m

/-- The largest blade decides which dimension is needed. -/
theorem needs_of_isGreatest {terms : List (Nat × α)} {b : Nat}
    (h : IsGreatest {c | ∃ t ∈ terms, t.1 = c} b) : Needs terms (Blade.requiredDimension b) := by
  obtain ⟨⟨t, ht, rfl⟩, hmax⟩ := h
  refine ⟨⟨t, ht, rfl⟩, ?_⟩
  rintro k ⟨s, hs, rfl⟩
  exact requiredDimension_mono (hmax ⟨s, hs, rfl⟩)

theorem needs_requiredDimension {mv : Multivector α} (h : mv.terms ≠ []) :
    Needs mv.terms mv.requiredDimension :=
  needs_of_isGreatest (isGreatest_maxBlade h)

theorem terms_ne_nil_of_lt {mv : Multivector α} {d : Nat} (h : d < mv.requiredDimension) :
    mv.terms ≠ [] := by
  intro hnil
  rw [requiredDimension, maxBlade_of_nil hnil] at h
  exact absurd h (Nat.not_lt_zero d)

/-- The terms of a grade, all of whose ranks some algebra has, need what the largest rank needs. -/
theorem needs_gradeTerms {n g last : Nat} {terms : Terms α} (hn : n ≤ maxDimension)
    (h : ∀ r ∈ terms, r < n.choose g) (hlast : terms.maxKey? = some last) :
    Needs (gradeTerms g terms) (Blade.requiredDimension (unrank g last)) := by
  obtain ⟨hmem, hmax⟩ := Std.ExtTreeMap.maxKey?_eq_some_iff_mem_and_forall.mp hlast
  refine needs_of_isGreatest ⟨?_, ?_⟩
  · obtain ⟨v, hv⟩ := Terms.mem_iff_exists_getElem?.mp hmem
    exact ⟨(unrank g last, v), mem_gradeTerms.mpr ⟨last, hv, rfl⟩, rfl⟩
  · rintro b ⟨⟨_, v⟩, ht, rfl⟩
    obtain ⟨r, hr, rfl⟩ := mem_gradeTerms.mp ht
    have hle : r ≤ last :=
      Nat.isLE_compare.mp (hmax r (Terms.mem_iff_exists_getElem?.mpr ⟨v, hr⟩))
    rcases hle.eq_or_lt with rfl | hlt
    · exact le_rfl
    · exact (unrank_lt_unrank hn (h last hmem) hlt).le

/-! ## Refusals in each form -/

section Refusal

variable {n d : Nat}

/-- A grade that does not fit is reported with the dimension that its terms need. -/
theorem validateRanks_eq_error {g : Nat} {terms : Terms α} {e : Error} (hn : n ≤ maxDimension)
    (h : ∀ r ∈ terms, r < n.choose g) (hd : d ≤ maxDimension)
    (herror : validateRanks d g terms = .error e) :
    ∃ m, e = .dimensionMismatch d m ∧ d < m ∧ Needs (gradeTerms g terms) m := by
  rcases validateRanks_cases hn h d with hok | ⟨e', he', m, rfl⟩
  · rw [hok] at herror
    cases herror
  · obtain rfl : e = .dimensionMismatch d m := Except.error.inj (herror.symm.trans he')
    refine ⟨m, rfl, ?_⟩
    rw [validateRanks] at herror
    split at herror
    · cases herror
    · next last hlast =>
        split_ifs at herror with hlt hbad
        · cases herror
        · cases herror
          have hmem := (Std.ExtTreeMap.maxKey?_eq_some_iff_mem_and_forall.mp hlast).1
          refine ⟨not_le.mp fun hle => hlt ?_, needs_gradeTerms hn h hlast⟩
          -- a blade of the algebra has one of its ranks
          have hrank := rank_lt hd _ (requiredDimension_le_iff.mp hle)
          rwa [grade_unrank hn (h last hmem), rank_unrank hn (h last hmem),
            ← binomial_eq_choose g hd] at hrank

variable {mv : Multivector α} (hn : n ≤ maxDimension) (h : mv.InRange n)

include hn h

theorem validate_ne_ok (hlt : d < mv.requiredDimension) : mv.validate d ≠ .ok () := by
  intro hok
  obtain ⟨hd, -⟩ := (validate_eq_ok_iff d mv).mp hok
  have hcoherent := h.coherent hn
  rw [hcoherent.validate_iff d hd, ← hcoherent.requiredDimension_iff] at hok
  exact absurd hok (not_le.mpr hlt)

omit hn h in
theorem validate_sparse_eq_error {terms : Terms α} (hd : d ≤ maxDimension)
    (hlt : d < (sparse terms).requiredDimension) :
    (sparse terms).validate d = .error (.dimensionMismatch d (sparse terms).requiredDimension) := by
  have hne := terms_ne_nil_of_lt hlt
  rw [validate.eq_def, validateDimension_eq_ok_iff.mpr hd]
  simp only [bind, Except.bind]
  split
  · next hnone =>
      rw [Std.ExtTreeMap.maxKey?_eq_none_iff] at hnone
      subst hnone
      exact absurd rfl hne
  · next last hlast =>
      obtain ⟨hmem, hmax⟩ := Std.ExtTreeMap.maxKey?_eq_some_iff_mem_and_forall.mp hlast
      have hgreatest : IsGreatest {b | ∃ t ∈ (sparse terms).terms, t.1 = b} last := by
        refine ⟨?_, ?_⟩
        · obtain ⟨v, hv⟩ := Terms.mem_iff_exists_getElem?.mp hmem
          exact ⟨(last, v), Std.ExtTreeMap.mem_toList_iff_getElem?_eq_some.mpr hv, rfl⟩
        · rintro b ⟨t, ht, rfl⟩
          exact Nat.isLE_compare.mp (hmax t.1 (Terms.mem_of_mem_toList ht))
      have heq : (sparse terms).requiredDimension = Blade.requiredDimension last := by
        rw [requiredDimension, hgreatest.unique (isGreatest_maxBlade hne)]
      rw [heq] at hlt ⊢
      rw [if_pos hlt]

/-- Where terms are not kept grade by grade, a refusal reports what the whole multivector needs. -/
theorem validate_eq_error_of_form (hform : ∀ grades, mv ≠ graded grades) (hd : d ≤ maxDimension)
    (hlt : d < mv.requiredDimension) :
    mv.validate d = .error (.dimensionMismatch d mv.requiredDimension) := by
  cases mv with
  | scalar v => exact absurd hlt (Nat.not_lt_zero d)
  | kvector g terms =>
      have hne := validate_ne_ok hn h hlt
      have hneeds := needs_requiredDimension (terms_ne_nil_of_lt hlt)
      rw [validate.eq_def, validateDimension_eq_ok_iff.mpr hd] at hne ⊢
      simp only [bind, Except.bind] at hne ⊢
      cases hranks : validateRanks d g terms with
      | ok => exact absurd hranks hne
      | error e =>
          obtain ⟨m, rfl, -, hm⟩ := validateRanks_eq_error hn h hd hranks
          rw [hm.unique hneeds]
  | graded grades => exact absurd rfl (hform grades)
  | sparse terms => exact validate_sparse_eq_error hd hlt

/-- So only terms by grade can report something else. -/
theorem eq_requiredDimension_of_validate (hform : ¬ mv.IsGraded) (hd : d ≤ maxDimension) {r : Nat}
    (herror : mv.validate d = .error (.dimensionMismatch d r)) : r = mv.requiredDimension := by
  have hlt : d < mv.requiredDimension := by
    by_contra hle
    have hvalid : mv.validate d = .ok () := ((h.coherent hn).validate_iff d hd).mpr
      (requiredDimension_le_iff_terms.mp (not_lt.mp hle))
    rw [hvalid] at herror
    cases herror
  rw [validate_eq_error_of_form hn h (not_exists.mp hform) hd hlt] at herror
  cases herror
  rfl

omit h in
/-- The terms of a grade are those that are kept under it. -/
theorem mem_gradeTerms_iff_grade {grades : Std.ExtTreeMap Nat (Terms α)}
    (h : (graded grades).InRange n) {g : Nat × Terms α} (hg : g ∈ grades.toList)
    {t : Nat × α} :
    t ∈ gradeTerms g.1 g.2 ↔ t ∈ (graded grades).terms ∧ grade t.1 = g.1 := by
  have hgrade : ∀ g ∈ grades.toList, ∀ t ∈ gradeTerms g.1 g.2, grade t.1 = g.1 := fun g hg t ht =>
    (lt_of_mem_gradeTerms hn (h g.1 g.2 (Std.ExtTreeMap.mem_toList_iff_getElem?_eq_some.mp hg))
      ht).2
  constructor
  · exact fun ht => ⟨List.mem_flatMap.mpr ⟨g, hg, ht⟩, hgrade g hg t ht⟩
  · rintro ⟨ht, hkey⟩
    obtain ⟨g', hg', ht⟩ := List.mem_flatMap.mp ht
    have heq : g'.1 = g.1 := (hgrade g' hg' t ht).symm.trans hkey
    have hfind := Std.ExtTreeMap.mem_toList_iff_getElem?_eq_some.mp hg'
    rw [heq, Std.ExtTreeMap.mem_toList_iff_getElem?_eq_some.mp hg] at hfind
    obtain rfl : g = g' := Prod.ext heq.symm (Option.some.inj hfind)
    exact ht

/-- Terms grade by grade are refused for the least grade that does not fit. -/
theorem validate_graded_eq_error {grades : Std.ExtTreeMap Nat (Terms α)} (hmv : mv = graded grades)
    (hd : d ≤ maxDimension) (hlt : d < mv.requiredDimension) :
    ∃ g m, mv.validate d = .error (.dimensionMismatch d m) ∧
      IsLeast {k | ∃ t ∈ mv.terms, grade t.1 = k ∧ d < Blade.requiredDimension t.1} g ∧
      IsGreatest {k | ∃ t ∈ mv.terms, grade t.1 = g ∧ Blade.requiredDimension t.1 = k} m := by
  have hne := validate_ne_ok hn h hlt
  subst hmv
  have hrange : ∀ g ∈ grades.toList, ∀ r ∈ g.2, r < n.choose g.1 := fun g hg =>
    h g.1 g.2 (Std.ExtTreeMap.mem_toList_iff_getElem?_eq_some.mp hg)
  rw [validate.eq_def, validateDimension_eq_ok_iff.mpr hd] at hne ⊢
  simp only [bind, Except.bind] at hne ⊢
  cases hforM : grades.toList.forM fun g => validateRanks d g.1 g.2 with
  | ok => exact absurd hforM hne
  | error e =>
      obtain ⟨before, g, after, hlist, hbefore, hg⟩ := exists_of_forM_eq_error hforM
      have hgmem : g ∈ grades.toList := by simp [hlist]
      obtain ⟨m, rfl, hdm, ⟨t, ht, htm⟩, hmax⟩ :=
        validateRanks_eq_error hn (hrange g hgmem) hd hg
      obtain ⟨htmem, htg⟩ := (mem_gradeTerms_iff_grade hn h hgmem).mp ht
      refine ⟨g.1, m, rfl, ⟨⟨t, htmem, htg, htm ▸ hdm⟩, ?_⟩, ⟨t, htmem, htg, htm⟩, ?_⟩
      · -- the grades before are in range, and those after are larger
        rintro k ⟨s, hs, rfl, hds⟩
        obtain ⟨g', hg', hs⟩ := List.mem_flatMap.mp hs
        rw [((mem_gradeTerms_iff_grade hn h hg').mp hs).2]
        have hsorted : grades.toList.Pairwise fun k l => k.1 < l.1 :=
          Std.ExtTreeMap.ordered_keys_toList.imp Nat.compare_eq_lt.mp
        rw [hlist] at hg' hsorted
        rcases List.mem_append.mp hg' with hbefore' | hrest
        · have hin := (validateRanks_eq_ok_iff hd g'.1 g'.2).mp (hbefore g' hbefore')
          exact absurd (lt_of_mem_gradeTerms hd hin hs).1
            (not_lt.mpr (lt_requiredDimension_iff.mp hds))
        · rcases List.mem_cons.mp hrest with rfl | hafter
          · exact le_rfl
          · exact (List.rel_of_pairwise_cons (List.pairwise_append.mp hsorted).2.1 hafter).le
      · rintro k ⟨s, hs, hsg, rfl⟩
        exact hmax ⟨s, (mem_gradeTerms_iff_grade hn h hgmem).mpr ⟨hs, hsg⟩, rfl⟩

theorem requiredDimension_toSparse : mv.toSparse.requiredDimension = mv.requiredDimension := by
  have hterms : ∀ t, t ∈ mv.toSparse.terms ↔ t ∈ mv.terms := by
    intro t
    rw [toSparse_eq]
    exact Std.ExtTreeMap.mem_toList_iff_getElem?_eq_some.trans (getElem?_toTerms_iff hn h)
  refine eq_of_forall_ge_iff fun d => ?_
  rw [requiredDimension_le_iff_terms, requiredDimension_le_iff_terms]
  simp only [hterms]

end Refusal

/-- **A refusal reports what the first grade that does not fit needs.** An algebra that is too small
    for a multivector refuses it and reports a dimension above its own. With the terms by blade that
    is the dimension that the whole multivector needs. So it is in every form but the one by grades,
    and there iff a term that needs this dimension is of the least grade that does not fit: reported
    is what the terms of this grade need. -/
theorem validate_reports {mv : Multivector α} {d : Nat} (h : mv.validate maxDimension = .ok ())
    (hlt : d < mv.requiredDimension) :
    mv.toSparse.validate d = .error (.dimensionMismatch d mv.requiredDimension) ∧
    ∃ m, mv.validate d = .error (.dimensionMismatch d m) ∧ d < m ∧ m ≤ mv.requiredDimension ∧
      ((∀ grades, mv ≠ graded grades) → m = mv.requiredDimension) ∧
      (∀ grades, mv = graded grades → ∃ g,
        IsLeast {k | ∃ t ∈ mv.terms, grade t.1 = k ∧ d < Blade.requiredDimension t.1} g ∧
        IsGreatest {k | ∃ t ∈ mv.terms, grade t.1 = g ∧ Blade.requiredDimension t.1 = k} m) ∧
      (m = mv.requiredDimension ↔ (∀ grades, mv ≠ graded grades) ∨
        ∃ t ∈ mv.terms, Blade.requiredDimension t.1 = mv.requiredDimension ∧
          ∀ s ∈ mv.terms, d < Blade.requiredDimension s.1 → grade t.1 ≤ grade s.1) := by
  obtain ⟨-, hrange⟩ := (validate_eq_ok_iff _ mv).mp h
  have hd : d ≤ maxDimension :=
    hlt.le.trans ((((hrange.coherent le_rfl).requiredDimension_iff _).mpr
      fun t ht => lt_of_mem_terms le_rfl hrange ht))
  obtain ⟨-, hneeds⟩ := needs_requiredDimension (terms_ne_nil_of_lt hlt)
  refine ⟨?_, ?_⟩
  · rw [← requiredDimension_toSparse le_rfl hrange, toSparse_eq] at hlt ⊢
    exact validate_sparse_eq_error hd hlt
  · by_cases hform : ∀ grades, mv ≠ graded grades
    · exact ⟨_, validate_eq_error_of_form le_rfl hrange hform hd hlt, hlt, le_rfl, fun _ => rfl,
        fun grades hmv => absurd hmv (hform grades), fun _ => Or.inl hform, fun _ => rfl⟩
    · obtain ⟨grades, hmv⟩ := not_forall_not.mp hform
      obtain ⟨g, m, herror, hleast, hgreatest⟩ :=
        validate_graded_eq_error le_rfl hrange hmv hd hlt
      obtain ⟨⟨s, hs, hsg, hds⟩, hlow⟩ := hleast
      obtain ⟨⟨t, ht, htg, rfl⟩, hmax⟩ := hgreatest
      refine ⟨_, herror, hds.trans_le (hmax ⟨s, hs, hsg, rfl⟩), hneeds ⟨t, ht, rfl⟩,
        fun h => absurd h hform,
        fun _ _ => ⟨g, ⟨⟨s, hs, hsg, hds⟩, hlow⟩, ⟨t, ht, htg, rfl⟩, hmax⟩, ?_, ?_⟩
      · exact fun heq => Or.inr ⟨t, ht, heq, fun u hu hdu => htg ▸ hlow ⟨u, hu, rfl, hdu⟩⟩
      · rintro (h | ⟨u, hu, huneed, hulow⟩)
        · exact absurd h hform
        · -- such a term does not fit either, so its grade is the reported one
          have hug : grade u.1 = g :=
            le_antisymm (hsg ▸ hulow s hs hds) (hlow ⟨u, hu, rfl, huneed ▸ hlt⟩)
          exact le_antisymm (hneeds ⟨t, ht, rfl⟩) (hmax ⟨u, hu, hug, huneed⟩)

/-- Terms by grade, `e₃ + e₄ e₅`, in an algebra with three vectors: they need six vectors, of which
    the refusal reports four; the same terms by blade report six. -/
theorem validate_reports_graded :
    let mv : Multivector Int := .ofGrades [(1, 3, 1), (2, 14, 1)]
    mv.validate maxDimension = .ok () ∧ 3 < mv.requiredDimension ∧
      mv.toSparse.validate 3 = .error (.dimensionMismatch 3 6) ∧
      mv.validate 3 = .error (.dimensionMismatch 3 4) ∧
      ¬ ∃ t ∈ mv.terms, Blade.requiredDimension t.1 = 6 ∧
        ∀ s ∈ mv.terms, 3 < Blade.requiredDimension s.1 → grade t.1 ≤ grade s.1 := by
  intro mv
  have hvalid : mv.validate maxDimension = .ok () := by cbv
  have hdimension : mv.requiredDimension = 6 := by cbv
  have hlt : 3 < mv.requiredDimension := by rw [hdimension]; decide
  obtain ⟨hsparse, m, hm, -, -, -, -, hiff⟩ := validate_reports hvalid hlt
  have hreported : mv.validate 3 = .error (.dimensionMismatch 3 4) := by cbv
  obtain rfl : m = 4 := by
    rw [hreported] at hm
    cases hm
    rfl
  rw [hdimension] at hsparse hiff
  exact ⟨hvalid, hlt, hsparse, hreported, fun h => absurd (hiff.mpr (Or.inr h)) (by decide)⟩

end Multivector

end GeometricAlgebra
