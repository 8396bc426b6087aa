import GeometricAlgebra.Multivector.Basic
import GeometricAlgebra.Proofs.Blade.Rank

set_option autoImplicit false

/-! # The terms of a valid multivector

`validate` accepts a multivector iff all its keys are in range, `InRange`. For such a multivector
the four forms are one thing, a finite map from blades to coefficients: `terms` lists blades of the
algebra (`lt_of_mem_terms`), each at most once (`nodup_terms`), and both `get?` and `toTerms` look
the same pairs up. Where the key is a rank this rests on ranks and blades being in bijection. -/

namespace GeometricAlgebra

/-! ## Checks in sequence -/

section Checks

variable {ε β γ : Type}

theorem bind_eq_ok_iff {x : Except ε β} {f : β → Except ε γ} {c : γ} :
    (x >>= f) = .ok c ↔ ∃ b, x = .ok b ∧ f b = .ok c := by
  cases x with
  | error e =>
      constructor
      · intro h; cases h
      · rintro ⟨_, h, -⟩; cases h
  | ok b =>
      constructor
      · exact fun h => ⟨b, rfl, h⟩
      · rintro ⟨_, hb, h⟩; cases hb; exact h

theorem bind_eq_error_iff {x : Except ε β} {f : β → Except ε γ} {e : ε} :
    (x >>= f) = .error e ↔ x = .error e ∨ ∃ b, x = .ok b ∧ f b = .error e := by
  cases x with
  | error e' =>
      constructor
      · intro h; cases h; exact Or.inl rfl
      · rintro (h | ⟨_, h, -⟩) <;> cases h; rfl
  | ok b =>
      constructor
      · exact fun h => Or.inr ⟨b, rfl, h⟩
      · rintro (h | ⟨_, hb, h⟩)
        · cases h
        · cases hb; exact h

theorem forM_eq_ok_iff (l : List β) (f : β → Except ε Unit) :
    l.forM f = .ok () ↔ ∀ x ∈ l, f x = .ok () := by
  induction l with
  | nil => simp [pure, Except.pure]
  | cons x l ih =>
      rw [List.forM_eq_forM, List.forM_cons, bind_eq_ok_iff, List.forall_mem_cons, ← ih]
      exact ⟨fun ⟨_, hx, hl⟩ => ⟨hx, hl⟩, fun ⟨hx, hl⟩ => ⟨(), hx, hl⟩⟩

/-- Checks that can only fail in one way fail in this way together. -/
theorem forM_cases {P : ε → Prop} {l : List β} {f : β → Except ε Unit}
    (h : ∀ x ∈ l, f x = .ok () ∨ ∃ e, f x = .error e ∧ P e) :
    l.forM f = .ok () ∨ ∃ e, l.forM f = .error e ∧ P e := by
  induction l with
  | nil => exact Or.inl rfl
  | cons x l ih =>
      rw [List.forM_eq_forM, List.forM_cons]
      rcases h x List.mem_cons_self with hx | ⟨e, hx, he⟩
      · rw [hx]
        exact ih fun y hy => h y (List.mem_cons_of_mem x hy)
      · rw [hx]
        exact Or.inr ⟨e, rfl, he⟩

/-- A list is mapped iff all of its members are. -/
theorem mapM_eq_ok_iff {l : List β} {f : β → Except ε γ} {cs : List γ} :
    l.mapM f = .ok cs ↔ List.Forall₂ (fun x c => f x = .ok c) l cs := by
  induction l generalizing cs with
  | nil =>
      rw [List.mapM_nil, List.forall₂_nil_left_iff]
      exact ⟨fun h => by cases h; rfl, fun h => by rw [h]; rfl⟩
  | cons x l ih =>
      rw [List.mapM_cons, bind_eq_ok_iff, List.forall₂_cons_left_iff]
      refine exists_congr fun c => ?_
      rw [bind_eq_ok_iff]
      constructor
      · rintro ⟨hc, ds, hds, h⟩
        cases h
        exact ⟨ds, hc, ih.mp hds, rfl⟩
      · rintro ⟨ds, hc, hds, rfl⟩
        exact ⟨hc, ds, ih.mpr hds, rfl⟩

theorem mapM_eq_ok {l : List β} {f : β → Except ε γ} {P : β → γ → Prop}
    (h : ∀ x ∈ l, ∃ c, f x = .ok c ∧ P x c) : ∃ cs, l.mapM f = .ok cs ∧ List.Forall₂ P l cs := by
  induction l with
  | nil => exact ⟨[], rfl, List.Forall₂.nil⟩
  | cons x l ih =>
      obtain ⟨c, hc, hx⟩ := h x List.mem_cons_self
      obtain ⟨cs, hcs, hl⟩ := ih fun y hy => h y (List.mem_cons_of_mem x hy)
      refine ⟨c :: cs, ?_, List.Forall₂.cons hx hl⟩
      exact mapM_eq_ok_iff.mpr (List.Forall₂.cons hc (mapM_eq_ok_iff.mp hcs))

theorem mapM_eq_ok_of_forall₂ {δ : Type} {P : δ → β → Prop} {l : List δ} {bs : List β}
    {f : β → Except ε γ} {g : δ → γ} (h : List.Forall₂ P l bs)
    (hf : ∀ d b, P d b → f b = .ok (g d)) : bs.mapM f = .ok (l.map g) := by
  rw [mapM_eq_ok_iff, List.forall₂_map_right_iff]
  exact (h.imp hf).flip

theorem foldlM_eq_ok {l : List β} {f : γ → β → Except ε γ} {g : γ → β → γ}
    (h : ∀ x ∈ l, ∀ c, f c x = .ok (g c x)) (c : γ) : l.foldlM f c = .ok (l.foldl g c) := by
  induction l generalizing c with
  | nil => rfl
  | cons x l ih =>
      rw [List.foldlM_cons, h x List.mem_cons_self]
      exact ih (fun y hy => h y (List.mem_cons_of_mem x hy)) _

/-- Steps that are checked first are all done, or one check fails. -/
theorem foldlM_check_eq_ok_iff {l : List β} {check : β → Except ε Unit} {g : γ → β → γ} {c d : γ} :
    (l.foldlM (fun c x => do check x; return g c x) c : Except ε γ) = .ok d ↔
      (∀ x ∈ l, check x = .ok ()) ∧ d = l.foldl g c := by
  induction l generalizing c with
  | nil => exact ⟨fun h => by cases h; simp, fun h => by rw [h.2]; rfl⟩
  | cons x l ih =>
      rw [List.foldlM_cons, List.forall_mem_cons, List.foldl_cons, and_assoc, ← ih, bind_eq_ok_iff]
      constructor
      · rintro ⟨c', h, hl⟩
        obtain ⟨_, hx, h⟩ := bind_eq_ok_iff.mp h
        cases h
        exact ⟨hx, hl⟩
      · rintro ⟨hx, hl⟩
        exact ⟨g c x, by rw [hx]; rfl, hl⟩

theorem toOption_eq_some_iff {x : Except ε β} {b : β} : x.toOption = some b ↔ x = .ok b := by
  cases x <;> simp [Except.toOption]

/-- What every step keeps holds at the end, if there is one. -/
theorem of_foldlM_eq_ok {P : γ → Prop} {l : List β} {f : γ → β → Except ε γ}
    (hstep : ∀ x ∈ l, ∀ c d, P c → f c x = .ok d → P d) {c d : γ} (hc : P c)
    (h : l.foldlM f c = .ok d) : P d := by
  induction l generalizing c with
  | nil =>
      cases h
      exact hc
  | cons x l ih =>
      rw [List.foldlM_cons] at h
      obtain ⟨c', hx, h⟩ := bind_eq_ok_iff.mp h
      exact ih (fun y hy => hstep y (List.mem_cons_of_mem x hy))
        (hstep x List.mem_cons_self c c' hc hx) h

/-- A failure on the way is the failure of a step. -/
theorem of_foldlM_eq_error {P : ε → Prop} {l : List β} {f : γ → β → Except ε γ}
    (hstep : ∀ x ∈ l, ∀ c e, f c x = .error e → P e) {c : γ} {e : ε} (h : l.foldlM f c = .error e) :
    P e := by
  induction l generalizing c with
  | nil => cases h
  | cons x l ih =>
      rw [List.foldlM_cons, bind_eq_error_iff] at h
      rcases h with h | ⟨c', -, h⟩
      · exact hstep x List.mem_cons_self c e h
      · exact ih (fun y hy => hstep y (List.mem_cons_of_mem x hy)) h

end Checks

variable {α : Type}

/-! ## Tree maps as lists without repeated keys -/

namespace Terms

theorem nodup_map_fst_toList (t : Terms α) : (t.toList.map Prod.fst).Nodup := by
  rw [Std.ExtTreeMap.map_fst_toList_eq_keys]
  exact Std.ExtTreeMap.nodup_keys

theorem mem_of_mem_toList {t : Terms α} {s : Nat × α} (h : s ∈ t.toList) : s.1 ∈ t := by
  rw [← Std.ExtTreeMap.mem_keys, ← Std.ExtTreeMap.map_fst_toList_eq_keys]
  exact List.mem_map_of_mem h

/-- Keys stay apart under a map that tells them apart. -/
theorem nodup_map_keys {β : Type} (t : Terms α) (f : Nat → β)
    (hf : ∀ b ∈ t, ∀ c ∈ t, f b = f c → b = c) : (t.toList.map fun s => f s.1).Nodup := by
  have hmap : (t.toList.map fun s => f s.1) = (t.toList.map Prod.fst).map f := by
    rw [List.map_map]
    rfl
  rw [hmap]
  refine List.Nodup.map_on (fun b hb c hc => ?_) (nodup_map_fst_toList t)
  obtain ⟨s, hs, rfl⟩ := List.mem_map.mp hb
  obtain ⟨u, hu, rfl⟩ := List.mem_map.mp hc
  exact hf s.1 (mem_of_mem_toList hs) u.1 (mem_of_mem_toList hu)

theorem mem_iff_exists_getElem? {t : Terms α} {b : Nat} : b ∈ t ↔ ∃ v, t[b]? = some v := by
  rw [Std.ExtTreeMap.mem_iff_isSome_getElem?, Option.isSome_iff_exists]

/-- A list without repeated keys is the map that it fills. -/
theorem getElem?_ofList_iff {l : List (Nat × α)} (hl : (l.map Prod.fst).Nodup) {b : Nat} {v : α} :
    (Std.ExtTreeMap.ofList l : Terms α)[b]? = some v ↔ (b, v) ∈ l := by
  have hdistinct : l.Pairwise (fun s t => ¬ compare s.1 t.1 = .eq) := by
    rw [List.Nodup, List.pairwise_map] at hl
    exact hl.imp fun h heq => h (Nat.compare_eq_eq.mp heq)
  constructor
  · intro h
    have hmem : b ∈ (Std.ExtTreeMap.ofList l : Terms α) := mem_iff_exists_getElem?.mpr ⟨v, h⟩
    rw [Std.ExtTreeMap.mem_ofList, List.contains_iff_mem] at hmem
    obtain ⟨⟨b', w⟩, hw, rfl⟩ := List.mem_map.mp hmem
    rw [Std.ExtTreeMap.getElem?_ofList_of_mem (Nat.compare_eq_eq.mpr rfl) hdistinct hw] at h
    cases h
    exact hw
  · exact fun h => Std.ExtTreeMap.getElem?_ofList_of_mem (Nat.compare_eq_eq.mpr rfl) hdistinct h

end Terms

namespace Multivector

open Blade

/-! ## Validation -/

/-- All keys belong to an `n`-dimensional algebra. -/
def InRange (n : Nat) : Multivector α → Prop
  | scalar _ => True
  | kvector g terms => ∀ r ∈ terms, r < n.choose g
  | graded grades => ∀ g terms, grades[g]? = some terms → ∀ r ∈ terms, r < n.choose g
  | sparse terms => ∀ b ∈ terms, b < 2 ^ n

theorem requiredDimension_le_iff {b n : Nat} : Blade.requiredDimension b ≤ n ↔ b < 2 ^ n := by
  rw [Blade.requiredDimension]
  split
  · next h => simp [h]
  · next h => rw [Nat.succ_le_iff, Nat.log2_lt h]

theorem validateDimension_eq_ok_iff {n : Nat} :
    validateDimension n = .ok () ↔ n ≤ maxDimension := by
  rw [validateDimension]
  split
  · next h => simp [h]
  · next h => simpa using h

theorem validateBlade_eq_ok_iff {n b : Nat} :
    Blade.validate n b = .ok () ↔ n ≤ maxDimension ∧ b < 2 ^ n := by
  rw [Blade.validate, bind_eq_ok_iff, ← validateDimension_eq_ok_iff, Nat.one_shiftLeft]
  constructor
  · rintro ⟨_, hn, h⟩
    split at h
    · next hb => exact ⟨hn, hb⟩
    · cases h
  · rintro ⟨hn, hb⟩
    exact ⟨(), hn, if_pos hb⟩

/-- The largest key decides for all of them. -/
theorem forall_mem_lt_iff {terms : Terms α} {last m : Nat} (h : terms.maxKey? = some last) :
    (∀ r ∈ terms, r < m) ↔ last < m := by
  obtain ⟨hmem, hmax⟩ := Std.ExtTreeMap.maxKey?_eq_some_iff_mem_and_forall.mp h
  refine ⟨fun hall => hall last hmem, fun hlast r hr => lt_of_le_of_lt ?_ hlast⟩
  exact Nat.isLE_compare.mp (hmax r hr)

theorem forall_mem_of_maxKey?_eq_none {terms : Terms α} (h : terms.maxKey? = none)
    (P : Nat → Prop) : ∀ r ∈ terms, P r := by
  rw [Std.ExtTreeMap.maxKey?_eq_none_iff] at h
  subst h
  simp

theorem validateRanks_eq_ok_iff {n : Nat} (hn : n ≤ maxDimension) (g : Nat) (terms : Terms α) :
    validateRanks n g terms = .ok () ↔ ∀ r ∈ terms, r < n.choose g := by
  rw [validateRanks]
  split
  · next h => exact iff_of_true rfl (forall_mem_of_maxKey?_eq_none h _)
  · next last h =>
      rw [forall_mem_lt_iff h, binomial_eq_choose g hn]
      split
      · next hlt => simp [hlt]
      · next hge => split <;> simp [hge]

theorem validateGrades_eq_ok_iff {n : Nat} (hn : n ≤ maxDimension)
    (grades : Std.ExtTreeMap Nat (Terms α)) :
    (grades.toList.forM fun g => validateRanks n g.1 g.2) = .ok () ↔
      ∀ g terms, grades[g]? = some terms → ∀ r ∈ terms, r < n.choose g := by
  rw [forM_eq_ok_iff]
  constructor
  · intro h g terms hg
    have hmem : (g, terms) ∈ grades.toList := Std.ExtTreeMap.mem_toList_iff_getElem?_eq_some.mpr hg
    exact (validateRanks_eq_ok_iff hn g terms).mp (h (g, terms) hmem)
  · rintro h ⟨g, terms⟩ hg
    rw [Std.ExtTreeMap.mem_toList_iff_getElem?_eq_some] at hg
    exact (validateRanks_eq_ok_iff hn g terms).mpr (h g terms hg)

theorem validateBlades_eq_ok_iff (n : Nat) (terms : Terms α) :
    (match terms.maxKey? with
      | none => .ok ()
      | some last =>
        if Blade.requiredDimension last > n then
          .error (.dimensionMismatch n (Blade.requiredDimension last))
        else .ok () : Except Error Unit) = .ok () ↔ ∀ b ∈ terms, b < 2 ^ n := by
  split
  · next h => exact iff_of_true rfl (forall_mem_of_maxKey?_eq_none h _)
  · next last h =>
      rw [forall_mem_lt_iff h, ← requiredDimension_le_iff]
      split
      · next hgt => simp [not_le.mpr hgt]
      · next hle => simp [not_lt.mp hle]

/-- **A multivector is accepted iff all its keys are in range.** -/
theorem validate_eq_ok_iff (n : Nat) (mv : Multivector α) :
    mv.validate n = .ok () ↔ n ≤ maxDimension ∧ mv.InRange n := by
  by_cases hn : n ≤ maxDimension
  · rw [validate.eq_def, validateDimension_eq_ok_iff.mpr hn, and_iff_right hn]
    cases mv with
    | scalar v => exact iff_of_true rfl trivial
    | kvector g terms => exact validateRanks_eq_ok_iff hn g terms
    | graded grades => exact validateGrades_eq_ok_iff hn grades
    | sparse terms => exact validateBlades_eq_ok_iff n terms
  · refine iff_of_false (fun h => hn ?_) (fun h => hn h.1)
    rw [validate.eq_def, bind_eq_ok_iff] at h
    obtain ⟨_, hdim, -⟩ := h
    exact validateDimension_eq_ok_iff.mp hdim

/-! ## The blades of the view -/

section View

variable {n : Nat} {mv : Multivector α}

theorem mem_gradeTerms {g b : Nat} {terms : Terms α} {v : α} :
    (b, v) ∈ gradeTerms g terms ↔ ∃ r, terms[r]? = some v ∧ unrank g r = b := by
  simp only [gradeTerms, List.mem_map, Prod.exists, Prod.mk.injEq,
    Std.ExtTreeMap.mem_toList_iff_getElem?_eq_some]
  constructor
  · rintro ⟨r, w, hr, rfl, rfl⟩
    exact ⟨r, hr, rfl⟩
  · rintro ⟨r, hr, rfl⟩
    exact ⟨r, v, hr, rfl, rfl⟩

/-- The terms of one grade, looked up by blade. -/
theorem mem_gradeTerms_iff {g b : Nat} {terms : Terms α} {v : α} (hn : n ≤ maxDimension)
    (h : ∀ r ∈ terms, r < n.choose g) (hb : b < 2 ^ maxDimension) :
    (b, v) ∈ gradeTerms g terms ↔ grade b = g ∧ terms[rank b]? = some v := by
  rw [mem_gradeTerms]
  constructor
  · rintro ⟨r, hr, rfl⟩
    have hlt := h r (Terms.mem_iff_exists_getElem?.mpr ⟨v, hr⟩)
    exact ⟨grade_unrank hn hlt, by rw [rank_unrank hn hlt]; exact hr⟩
  · rintro ⟨rfl, hr⟩
    exact ⟨rank b, hr, unrank_rank b hb⟩

theorem lt_of_mem_gradeTerms {g : Nat} {terms : Terms α} (hn : n ≤ maxDimension)
    (h : ∀ r ∈ terms, r < n.choose g) {t : Nat × α} (ht : t ∈ gradeTerms g terms) :
    t.1 < 2 ^ n ∧ grade t.1 = g := by
  obtain ⟨r, hr, hrt⟩ := mem_gradeTerms.mp ht
  have hlt := h r (Terms.mem_iff_exists_getElem?.mpr ⟨t.2, hr⟩)
  rw [← hrt]
  exact ⟨unrank_lt hn hlt, grade_unrank hn hlt⟩

theorem nodup_gradeTerms {g : Nat} {terms : Terms α} (hn : n ≤ maxDimension)
    (h : ∀ r ∈ terms, r < n.choose g) : ((gradeTerms g terms).map Prod.fst).Nodup := by
  rw [gradeTerms, List.map_map]
  refine Terms.nodup_map_keys terms (unrank g) fun r hr s hs heq => ?_
  rw [← rank_unrank hn (h r hr), heq, rank_unrank hn (h s hs)]

/-- Every blade of a valid multivector belongs to the algebra. -/
theorem lt_of_mem_terms (hn : n ≤ maxDimension) (h : mv.InRange n) {t : Nat × α}
    (ht : t ∈ mv.terms) : t.1 < 2 ^ n := by
  cases mv with
  | scalar v =>
      rw [terms, List.mem_singleton] at ht
      subst ht
      exact Nat.two_pow_pos n
  | kvector g terms => exact (lt_of_mem_gradeTerms hn h ht).1
  | graded grades =>
      obtain ⟨⟨g, terms⟩, hg, ht⟩ := List.mem_flatMap.mp ht
      have hg' := Std.ExtTreeMap.mem_toList_iff_getElem?_eq_some.mp hg
      exact (lt_of_mem_gradeTerms hn (h g terms hg') ht).1
  | sparse terms =>
      exact h t.1 (Terms.mem_iff_exists_getElem?.mpr
        ⟨t.2, Std.ExtTreeMap.mem_toList_iff_getElem?_eq_some.mp ht⟩)

/-- No blade of a valid multivector has two terms. -/
theorem nodup_terms (hn : n ≤ maxDimension) (h : mv.InRange n) :
    (mv.terms.map Prod.fst).Nodup := by
  cases mv with
  | scalar v => simp [terms]
  | kvector g terms => exact nodup_gradeTerms hn h
  | graded grades =>
      have hrange : ∀ g ∈ grades.toList, ∀ r ∈ g.2, r < n.choose g.1 := fun g hg =>
        h g.1 g.2 (Std.ExtTreeMap.mem_toList_iff_getElem?_eq_some.mp hg)
      rw [terms, List.map_flatMap, List.nodup_flatMap]
      refine ⟨fun g hg => nodup_gradeTerms hn (hrange g hg), ?_⟩
      -- different grades have different blades
      refine List.Pairwise.imp_of_mem ?_ Std.ExtTreeMap.distinct_keys_toList
      intro g g' hg hg' hne b hb hb'
      obtain ⟨t, ht, rfl⟩ := List.mem_map.mp hb
      obtain ⟨t', ht', heq⟩ := List.mem_map.mp hb'
      have hgrade := (lt_of_mem_gradeTerms hn (hrange g hg) ht).2
      have hgrade' := (lt_of_mem_gradeTerms hn (hrange g' hg') ht').2
      rw [heq] at hgrade'
      exact hne (Nat.compare_eq_eq.mpr (hgrade.symm.trans hgrade'))
  | sparse terms => exact Terms.nodup_map_fst_toList terms

/-- Looking a blade up finds exactly the terms of the view. -/
theorem get?_eq_some_iff (hn : n ≤ maxDimension) (h : mv.InRange n) {b : Nat}
    (hb : b < 2 ^ maxDimension) {v : α} : mv.get? b = some v ↔ (b, v) ∈ mv.terms := by
  cases mv with
  | scalar w =>
      rw [get?, terms, List.mem_singleton, Prod.mk.injEq]
      split
      · next hb0 => simp [hb0, eq_comm]
      · next hb0 => simp [hb0]
  | kvector g terms =>
      simp only [get?, Multivector.terms]
      rw [mem_gradeTerms_iff hn h hb]
      split
      · next hg => simp [hg]
      · next hg => simp [hg]
  | graded grades =>
      simp only [get?, Multivector.terms, List.mem_flatMap, Prod.exists,
        Std.ExtTreeMap.mem_toList_iff_getElem?_eq_some, Option.bind_eq_bind,
        Option.bind_eq_some_iff]
      constructor
      · rintro ⟨terms, hg, hr⟩
        exact ⟨grade b, terms, hg, (mem_gradeTerms_iff hn (h _ _ hg) hb).mpr ⟨rfl, hr⟩⟩
      · rintro ⟨g, terms, hg, hmem⟩
        obtain ⟨rfl, hr⟩ := (mem_gradeTerms_iff hn (h _ _ hg) hb).mp hmem
        exact ⟨terms, hg, hr⟩
  | sparse terms => exact Std.ExtTreeMap.mem_toList_iff_getElem?_eq_some.symm

/-- The coefficients by blade are those of the view. -/
theorem getElem?_toTerms_iff (hn : n ≤ maxDimension) (h : mv.InRange n) {b : Nat} {v : α} :
    mv.toTerms[b]? = some v ↔ (b, v) ∈ mv.terms :=
  Terms.getElem?_ofList_iff (nodup_terms hn h)

/-- Keys are in range iff the blades are, in whichever algebra the multivector is looked at. -/
theorem inRange_iff {d : Nat} (hn : n ≤ maxDimension) (h : mv.InRange n) (hd : d ≤ maxDimension) :
    mv.InRange d ↔ ∀ t ∈ mv.terms, t.1 < 2 ^ d := by
  have hranks : ∀ {g : Nat} {terms : Terms α}, (∀ r ∈ terms, r < n.choose g) →
      (∀ t ∈ gradeTerms g terms, t.1 < 2 ^ d) → ∀ r ∈ terms, r < d.choose g := by
    intro g terms hterms hall r hr
    obtain ⟨v, hv⟩ := Terms.mem_iff_exists_getElem?.mp hr
    have hlt := rank_lt hd _ (hall (unrank g r, v) (mem_gradeTerms.mpr ⟨r, hv, rfl⟩))
    rwa [grade_unrank hn (hterms r hr), rank_unrank hn (hterms r hr)] at hlt
  refine ⟨fun hmv _ => lt_of_mem_terms hd hmv, fun hall => ?_⟩
  cases mv with
  | scalar v => trivial
  | kvector g terms => exact hranks h hall
  | graded grades =>
      intro g terms hg
      refine hranks (h g terms hg) fun t ht => hall t (List.mem_flatMap.mpr ⟨(g, terms), ?_, ht⟩)
      exact Std.ExtTreeMap.mem_toList_iff_getElem?_eq_some.mpr hg
  | sparse terms =>
      intro b hb
      obtain ⟨v, hv⟩ := Terms.mem_iff_exists_getElem?.mp hb
      exact hall (b, v) (Std.ExtTreeMap.mem_toList_iff_getElem?_eq_some.mpr hv)

/-- A multivector of an algebra belongs to all larger ones. -/
theorem InRange.mono {d : Nat} (h : mv.InRange d) (hdn : d ≤ n) (hn : n ≤ maxDimension) :
    mv.InRange n :=
  (inRange_iff (hdn.trans hn) h hn).mpr fun _ ht =>
    (lt_of_mem_terms (hdn.trans hn) h ht).trans_le (Nat.pow_le_pow_right (by decide) hdn)

/-! ## Refusals -/

theorem validateRanks_cases {g : Nat} {terms : Terms α} (hn : n ≤ maxDimension)
    (h : ∀ r ∈ terms, r < n.choose g) (d : Nat) :
    validateRanks d g terms = .ok () ∨
      ∃ e, validateRanks d g terms = .error e ∧ ∃ r, e = .dimensionMismatch d r := by
  rw [validateRanks]
  split
  · exact Or.inl rfl
  · next last hlast =>
      have hmem : last ∈ terms :=
        (Std.ExtTreeMap.maxKey?_eq_some_iff_mem_and_forall.mp hlast).1
      have hlt : last < n.choose g := h last hmem
      have hle : n.choose g ≤ maxDimension.choose g := Nat.choose_le_choose g hn
      split
      · exact Or.inl rfl
      · split
        · next hbad =>
            -- the algebra that has all terms has this rank
            rw [binomial_eq_choose g le_rfl] at hbad
            rcases hbad with hg | hlast
            · rw [Nat.choose_eq_zero_of_lt (hn.trans_lt hg)] at hlt
              exact absurd hlt (Nat.not_lt_zero last)
            · exact absurd (hlt.trans_le hle) (not_lt.mpr hlast)
        · exact Or.inr ⟨_, rfl, _, rfl⟩

/-- An algebra refuses a multivector of another one only for its dimension. -/
theorem validate_cases {d : Nat} (hn : n ≤ maxDimension) (h : mv.InRange n)
    (hd : d ≤ maxDimension) :
    mv.validate d = .ok () ∨ ∃ e, mv.validate d = .error e ∧ ∃ r, e = .dimensionMismatch d r := by
  rw [validate.eq_def, validateDimension_eq_ok_iff.mpr hd]
  cases mv with
  | scalar v => exact Or.inl rfl
  | kvector g terms => exact validateRanks_cases hn h d
  | graded grades =>
      refine forM_cases fun g hg => validateRanks_cases hn (h g.1 g.2 ?_) d
      exact Std.ExtTreeMap.mem_toList_iff_getElem?_eq_some.mp hg
  | sparse terms =>
      simp only [bind, Except.bind]
      split
      · exact Or.inl rfl
      · split
        · exact Or.inr ⟨_, rfl, _, rfl⟩
        · exact Or.inl rfl

end View

end Multivector

end GeometricAlgebra
