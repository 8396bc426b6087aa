import GeometricAlgebra.Proofs.Multivector.Updates
import GeometricAlgebra.Proofs.Scalars

set_option autoImplicit false

/-! # Coefficients of sums

Where scalars form a ring, a collection of terms is read as its coefficients, `Terms.coeff`, zero
for a blade without a term. An update changes one coefficient as its name says, and what an
operation returns depends on the coefficients alone: zeros are dropped before a form is chosen
(`compact_spec`, `compact_congr`).

A multivector has coefficients too, and a sum over its stored terms is a sum over all blades of the
algebra (`sum_terms`). What operations return is given by its coefficients, `Represents`, so laws of
operations come down to equations between families of coefficients. -/

namespace GeometricAlgebra

open Blade

variable {α : Type}

namespace Terms

variable [CommRing α] {S : Scalars α}

/-- The coefficient of a blade. -/
def coeff (t : Terms α) (b : Nat) : α := t.getD b 0

@[simp] theorem coeff_empty (b : Nat) : coeff (∅ : Terms α) b = 0 := by
  simp [coeff]

theorem coeff_eq_getElem? (t : Terms α) (b : Nat) : coeff t b = t[b]?.getD 0 :=
  Std.ExtTreeMap.getD_eq_getD_getElem?

/-! ## Updates -/

theorem coeff_add (hS : S.IsRing) (t : Terms α) (b c : Nat) (v : α) :
    coeff (add S t b v) c = coeff t c + if b = c then v else 0 := by
  simp only [coeff, add, Std.ExtTreeMap.getD_alter, Nat.compare_eq_eq]
  by_cases h : b = c
  · subst h
    rw [if_pos rfl, if_pos rfl, Std.ExtTreeMap.getD_eq_getD_getElem?]
    cases t[b]? with
    | none => simp
    | some old => simp [hS.add]
  · rw [if_neg h, if_neg h, add_zero]

theorem coeff_subtract (hS : S.IsRing) (t : Terms α) (b c : Nat) (v : α) :
    coeff (subtract S t b v) c = coeff t c - if b = c then v else 0 := by
  simp only [coeff, subtract, Std.ExtTreeMap.getD_alter, Nat.compare_eq_eq]
  by_cases h : b = c
  · subst h
    rw [if_pos rfl, if_pos rfl, Std.ExtTreeMap.getD_eq_getD_getElem?]
    cases t[b]? with
    | none => simp [hS.neg]
    | some old => simp [hS.sub]
  · rw [if_neg h, if_neg h, sub_zero]

/-- A signed value is added with its sign, where the sign is that of a product of blades. -/
theorem coeff_addSigned (hS : S.IsRing) (t : Terms α) (b c : Nat) {s : Int}
    (hs : s = 0 ∨ s = 1 ∨ s = -1) (v : α) :
    coeff (addSigned S t b s v) c = coeff t c + if b = c then (s : α) * v else 0 := by
  rcases hs with rfl | rfl | rfl
  · simp [addSigned]
  · simp [addSigned, coeff_add hS]
  · rw [addSigned, if_neg (by decide), if_neg (by decide), if_pos rfl, coeff_subtract hS]
    split <;> simp [sub_eq_add_neg]

/-- Updates that each add to a coefficient add up. -/
theorem coeff_foldl {β : Type} {step : Terms α → β → Terms α} {g : β → α} {r : Nat} {l : List β}
    (h : ∀ x ∈ l, ∀ t, coeff (step t x) r = coeff t r + g x) (t : Terms α) :
    coeff (l.foldl step t) r = coeff t r + (l.map g).sum := by
  induction l generalizing t with
  | nil => simp
  | cons x l ih =>
      rw [List.foldl_cons, ih (fun y hy => h y (List.mem_cons_of_mem x hy)), h x List.mem_cons_self,
        List.map_cons, List.sum_cons, add_assoc]

/-- Insertions under different blades add up. -/
theorem coeff_foldl_insert {l : List (Nat × α)} (hl : (l.map Prod.fst).Nodup) (g : α → α)
    (r : Nat) :
    coeff (l.foldl (fun t s => t.insert s.1 (g s.2)) ∅) r
      = (l.map fun s => if s.1 = r then g s.2 else 0).sum := by
  induction l using List.reverseRecOn with
  | nil => simp
  | append_singleton l s ih =>
      rw [List.map_append, List.nodup_append'] at hl
      obtain ⟨hl, -, hdisjoint⟩ := hl
      rw [List.foldl_append, List.foldl_cons, List.foldl_nil, coeff, Std.ExtTreeMap.getD_insert,
        ← coeff, ih hl, List.map_append, List.sum_append, List.map_singleton, List.sum_singleton]
      simp only [Nat.compare_eq_eq]
      by_cases hr : s.1 = r
      · -- nothing is overwritten, as no earlier term has this blade
        have hrest : (l.map fun t => if t.1 = r then g t.2 else 0).sum = 0 := by
          refine List.sum_eq_zero fun v hv => ?_
          obtain ⟨t, ht, rfl⟩ := List.mem_map.mp hv
          refine if_neg fun htr => ?_
          exact hdisjoint (List.mem_map_of_mem ht) (by simp [htr, hr])
        rw [if_pos hr, if_pos hr, hrest, zero_add]
      · rw [if_neg hr, if_neg hr, add_zero]

theorem coeff_addScaled (hS : S.IsRing) (t : Terms α) (l : List (Nat × α)) (c : α) (r : Nat) :
    coeff (addScaled S t l c) r
      = coeff t r + (l.map fun s => if s.1 = r then s.2 * c else 0).sum := by
  refine coeff_foldl (fun s _ u => ?_) t
  rw [coeff_add hS, hS.mul]

/-! ## Dropping zeros -/

theorem getElem?_dropZeros_iff (h0 : S.isZero 0 = true) {t : Terms α} {b : Nat} {v : α} :
    (dropZeros S t)[b]? = some v ↔ v = coeff t b ∧ S.isZero v = false := by
  rw [getElem?_dropZeros, coeff_eq_getElem?]
  constructor
  · rintro ⟨hv, hne⟩
    rw [hv]
    exact ⟨rfl, hne⟩
  · rintro ⟨hv, hne⟩
    refine ⟨?_, hne⟩
    cases ht : t[b]? with
    | none =>
        -- a blade without a term has the coefficient zero, which is dropped
        rw [ht, Option.getD_none] at hv
        rw [hv, h0] at hne
        cases hne
    | some w => rw [hv, ht, Option.getD_some]

/-- A coefficient that counts as zero is dropped. -/
theorem coeff_dropZeros_cut (h0 : S.isZero 0 = true) (t : Terms α) (b : Nat) :
    coeff (dropZeros S t) b = S.cut (coeff t b) := by
  have hiff := fun v => getElem?_dropZeros_iff (S := S) h0 (t := t) (b := b) (v := v)
  rw [coeff_eq_getElem? (dropZeros S t)]
  cases hzero : S.isZero (coeff t b) with
  | true =>
      rw [Scalars.cut_of_isZero hzero]
      cases hget : (dropZeros S t)[b]? with
      | none => rfl
      | some v =>
          obtain ⟨rfl, hne⟩ := (hiff v).mp hget
          rw [hzero] at hne
          cases hne
  | false =>
      rw [Scalars.cut_of_not_isZero hzero, (hiff (coeff t b)).mpr ⟨rfl, hzero⟩, Option.getD_some]

/-- Where only zeros are dropped, no coefficient changes. -/
theorem coeff_dropZeros (hE : S.IsExact) (t : Terms α) (b : Nat) :
    coeff (dropZeros S t) b = coeff t b := by
  rw [coeff_dropZeros_cut hE.isZero_zero, hE.cut_eq]

/-- What is returned depends on the coefficients alone. -/
theorem compact_congr (h0 : S.isZero 0 = true) {t u : Terms α} (h : ∀ b, coeff t b = coeff u b) :
    compact S t = compact S u := by
  rw [compact, compact]
  congr 1
  apply Std.ExtTreeMap.ext_getElem?
  intro b
  refine Option.ext fun v => ?_
  rw [getElem?_dropZeros_iff h0, getElem?_dropZeros_iff h0, h b]

/-- **What is returned has the coefficients that are not zero.** -/
theorem compact_spec (h0 : S.isZero 0 = true) {n : Nat} (hn : n ≤ maxDimension) {t : Terms α}
    (ht : ∀ b, 2 ^ n ≤ b → coeff t b = 0) :
    (compact S t).InRange n ∧
      ∀ b v, (b, v) ∈ (compact S t).terms ↔ v = coeff t b ∧ S.isZero v = false := by
  have hlt : ∀ b ∈ dropZeros S t, b < 2 ^ n := by
    intro b hb
    obtain ⟨v, hv⟩ := mem_iff_exists_getElem?.mp hb
    obtain ⟨rfl, hne⟩ := (getElem?_dropZeros_iff h0).mp hv
    by_contra hge
    rw [ht b (not_lt.mp hge), h0] at hne
    cases hne
  obtain ⟨hrange, hterms⟩ := pack_spec hn hlt
  exact ⟨hrange, fun b v => (hterms b v).trans (getElem?_dropZeros_iff h0)⟩

end Terms

/-! ## Sums over terms -/

/-- A sum over terms without repeated blades is a sum over any set of blades that has them, where
    the other blades of the set have the coefficient zero. -/
theorem sum_map_eq_sum {M : Type} [AddCommMonoid M] [Zero α] {l : List (Nat × α)}
    (hl : (l.map Prod.fst).Nodup) {c : Nat → α} (hc : ∀ t ∈ l, c t.1 = t.2) {s : Finset Nat}
    (hs : ∀ t ∈ l, t.1 ∈ s) (hrest : ∀ b ∈ s, b ∉ l.map Prod.fst → c b = 0) {f : Nat → α → M}
    (hf : ∀ b, f b 0 = 0) : (l.map fun t => f t.1 t.2).sum = ∑ b ∈ s, f b (c b) := by
  have hmap : (l.map fun t => f t.1 t.2) = (l.map Prod.fst).map fun b => f b (c b) := by
    rw [List.map_map]
    refine List.map_congr_left fun t ht => ?_
    rw [Function.comp_apply, hc t ht]
  rw [hmap, ← List.sum_toFinset _ hl]
  refine Finset.sum_subset ?_ fun b hb hmem => ?_
  · intro b hb
    obtain ⟨t, ht, rfl⟩ := List.mem_map.mp (List.mem_toFinset.mp hb)
    exact hs t ht
  · rw [hrest b hb (by rwa [List.mem_toFinset] at hmem), hf]

namespace Terms

variable [CommRing α] {M : Type} [AddCommMonoid M]

theorem sum_toList (t : Terms α) {s : Finset Nat} (hs : ∀ b ∈ t, b ∈ s) {f : Nat → α → M}
    (hf : ∀ b, f b 0 = 0) :
    (t.toList.map fun u => f u.1 u.2).sum = ∑ b ∈ s, f b (coeff t b) := by
  refine sum_map_eq_sum (nodup_map_fst_toList t) (fun u hu => ?_)
    (fun u hu => hs _ (mem_of_mem_toList hu)) (fun b _ hb => ?_) hf
  · rw [coeff_eq_getElem?, Std.ExtTreeMap.mem_toList_iff_getElem?_eq_some.mp hu, Option.getD_some]
  · rw [Std.ExtTreeMap.map_fst_toList_eq_keys, Std.ExtTreeMap.mem_keys] at hb
    exact Std.ExtTreeMap.getD_eq_fallback hb

/-- Of a sum over the terms with a given blade only that coefficient is left. -/
theorem sum_toList_ite_eq (t : Terms α) (r : Nat) {g : α → M} (hg : g 0 = 0) :
    (t.toList.map fun u => if u.1 = r then g u.2 else 0).sum = g (coeff t r) := by
  have hmem : r ∈ insert r t.keys.toFinset := Finset.mem_insert_self _ _
  rw [sum_toList t (s := insert r t.keys.toFinset) (f := fun b v => if b = r then g v else 0),
    Finset.sum_ite_eq', if_pos hmem]
  · intro b hb
    exact Finset.mem_insert_of_mem (List.mem_toFinset.mpr (Std.ExtTreeMap.mem_keys.mpr hb))
  · intro b
    split
    · exact hg
    · rfl

end Terms

/-! ## Multivectors -/

namespace Multivector

variable [CommRing α] {n : Nat} {mv : Multivector α}

/-- The coefficient of a blade. -/
def coeff (mv : Multivector α) (b : Nat) : α := (mv.get? b).getD 0

theorem coeff_eq_of_mem (hn : n ≤ maxDimension) (h : mv.InRange n) {b : Nat} {v : α}
    (hb : (b, v) ∈ mv.terms) : mv.coeff b = v := by
  have hlt := (lt_of_mem_terms hn h hb).trans_le (Nat.pow_le_pow_right (by decide) hn)
  rw [coeff, (get?_eq_some_iff hn h hlt).mpr hb, Option.getD_some]

theorem coeff_eq_zero (hn : n ≤ maxDimension) (h : mv.InRange n) {b : Nat} (hb : b < 2 ^ n)
    (hmem : b ∉ mv.terms.map Prod.fst) : mv.coeff b = 0 := by
  have hlt := hb.trans_le (Nat.pow_le_pow_right (by decide) hn)
  rw [coeff]
  cases hget : mv.get? b with
  | none => rfl
  | some v =>
      exact absurd (List.mem_map.mpr ⟨_, (get?_eq_some_iff hn h hlt).mp hget, rfl⟩) hmem

/-- The terms that are not zero are the coefficients that are not zero. -/
theorem mem_terms_iff_coeff (hn : n ≤ maxDimension) (h : mv.InRange n) {b : Nat} (hb : b < 2 ^ n)
    {v : α} (hv : v ≠ 0) : (b, v) ∈ mv.terms ↔ v = mv.coeff b := by
  constructor
  · exact fun hmem => (coeff_eq_of_mem hn h hmem).symm
  · intro hcoeff
    by_cases hmem : b ∈ mv.terms.map Prod.fst
    · obtain ⟨⟨c, w⟩, hc, rfl⟩ := List.mem_map.mp hmem
      rwa [hcoeff, coeff_eq_of_mem hn h hc]
    · rw [coeff_eq_zero hn h hb hmem] at hcoeff
      exact absurd hcoeff hv

theorem coeff_toTerms (hn : n ≤ maxDimension) (h : mv.InRange n) (r : Nat) :
    Terms.coeff mv.toTerms r = if r < 2 ^ n then mv.coeff r else 0 := by
  rw [Terms.coeff_eq_getElem?]
  cases hget : mv.toTerms[r]? with
  | some v =>
      have hmem := (getElem?_toTerms_iff hn h).mp hget
      rw [if_pos (lt_of_mem_terms hn h hmem), coeff_eq_of_mem hn h hmem, Option.getD_some]
  | none =>
      rw [Option.getD_none]
      split
      · next hr =>
          refine (coeff_eq_zero hn h hr fun hmem => ?_).symm
          obtain ⟨t, ht, rfl⟩ := List.mem_map.mp hmem
          rw [(getElem?_toTerms_iff hn h).mpr ht] at hget
          cases hget
      · rfl

/-- A sum over the stored terms is a sum over all blades. -/
theorem sum_terms {M : Type} [AddCommMonoid M] (hn : n ≤ maxDimension) (h : mv.InRange n)
    (f : Nat → α → M) (hf : ∀ b, f b 0 = 0) :
    (mv.terms.map fun t => f t.1 t.2).sum = ∑ b ∈ Finset.range (2 ^ n), f b (mv.coeff b) := by
  refine sum_map_eq_sum (nodup_terms hn h) (fun t ht => coeff_eq_of_mem hn h ht)
    (fun t ht => Finset.mem_range.mpr (lt_of_mem_terms hn h ht)) (fun b hb hmem => ?_) hf
  exact coeff_eq_zero hn h (Finset.mem_range.mp hb) hmem

theorem sum_terms_ite_eq {M : Type} [AddCommMonoid M] (hn : n ≤ maxDimension) (h : mv.InRange n)
    (r : Nat) {g : α → M} (hg : g 0 = 0) :
    (mv.terms.map fun t => if t.1 = r then g t.2 else 0).sum
      = if r < 2 ^ n then g (mv.coeff r) else 0 := by
  rw [sum_terms hn h (fun b v => if b = r then g v else 0), Finset.sum_ite_eq']
  · simp only [Finset.mem_range]
  · intro b
    split
    · exact hg
    · rfl

end Multivector

/-- The result has the coefficients of the sum that do not count as zero. -/
theorem Terms.coeff_compact_cut [CommRing α] {S : Scalars α} (h0 : S.isZero 0 = true) {n : Nat}
    (hn : n ≤ maxDimension) {t : Terms α} (ht : ∀ b, 2 ^ n ≤ b → coeff t b = 0) {b : Nat}
    (hb : b < 2 ^ n) : (compact S t).coeff b = S.cut (coeff t b) := by
  obtain ⟨hrange, hterms⟩ := compact_spec h0 hn ht
  cases hzero : S.isZero (coeff t b) with
  | true =>
      rw [Scalars.cut_of_isZero hzero]
      refine Multivector.coeff_eq_zero hn hrange hb fun hmem => ?_
      obtain ⟨⟨c, v⟩, hc, rfl⟩ := List.mem_map.mp hmem
      obtain ⟨rfl, hne⟩ := (hterms _ _).mp hc
      rw [hzero] at hne
      cases hne
  | false =>
      rw [Scalars.cut_of_not_isZero hzero]
      exact Multivector.coeff_eq_of_mem hn hrange ((hterms b _).mpr ⟨rfl, hzero⟩)

/-- The result has the coefficients of the sum, where only zeros are dropped. -/
theorem Terms.coeff_compact [CommRing α] {S : Scalars α} (hS : S.IsExact) {n : Nat}
    (hn : n ≤ maxDimension) {t : Terms α} (ht : ∀ b, 2 ^ n ≤ b → coeff t b = 0) {b : Nat}
    (hb : b < 2 ^ n) : (compact S t).coeff b = coeff t b := by
  rw [coeff_compact_cut hS.isZero_zero hn ht hb, hS.cut_eq]

/-- A multivector whose terms are those of a collection has its coefficients. -/
theorem Multivector.coeff_eq_of_terms [CommRing α] {n : Nat} {mv : Multivector α} {t : Terms α}
    (hn : n ≤ maxDimension) (h : mv.InRange n)
    (hterms : ∀ b v, (b, v) ∈ mv.terms ↔ t[b]? = some v) {b : Nat} (hb : b < 2 ^ n) :
    mv.coeff b = Terms.coeff t b := by
  have hget : mv.get? b = t[b]? := by
    refine Option.ext fun v => ?_
    rw [get?_eq_some_iff hn h (hb.trans_le (Nat.pow_le_pow_right (by decide) hn)), hterms]
  rw [coeff, hget, Terms.coeff_eq_getElem?]

/-! ## Families of coefficients

An operand is known by its coefficients. What an operation returns is determined by them, its form
included. -/

namespace Multivector

variable [CommRing α]

/-- The multivector has these coefficients in an `n`-dimensional algebra. -/
structure HasCoeffs (n : Nat) (mv : Multivector α) (x : Nat → α) : Prop where
  inRange : mv.InRange n
  coeff_eq : ∀ r < 2 ^ n, mv.coeff r = x r

/-- The multivector has these coefficients in an `n`-dimensional algebra, and the form that
    operations give to sums. -/
def Represents (S : Scalars α) (n : Nat) (mv : Multivector α) (x : Nat → α) : Prop :=
  ∃ t : Terms α, (∀ r, Terms.coeff t r = if r < 2 ^ n then x r else 0) ∧ mv = Terms.compact S t

section Represents

variable {S : Scalars α} {n : Nat} {mv mv' : Multivector α} {x y : Nat → α}

theorem InRange.hasCoeffs (h : mv.InRange n) : mv.HasCoeffs n mv.coeff := ⟨h, fun _ _ => rfl⟩

theorem represents_compact {t : Terms α}
    (ht : ∀ r, Terms.coeff t r = if r < 2 ^ n then x r else 0) :
    (Terms.compact S t).Represents S n x := ⟨t, ht, rfl⟩

theorem Represents.congr (h : mv.Represents S n x) (hxy : ∀ r < 2 ^ n, x r = y r) :
    mv.Represents S n y := by
  obtain ⟨t, ht, rfl⟩ := h
  refine represents_compact fun r => ?_
  rw [ht r]
  split
  · next hr => exact hxy r hr
  · rfl

theorem Represents.unique (h0 : S.isZero 0 = true) (h : mv.Represents S n x)
    (h' : mv'.Represents S n x) : mv = mv' := by
  obtain ⟨t, ht, rfl⟩ := h
  obtain ⟨u, hu, rfl⟩ := h'
  refine Terms.compact_congr h0 fun r => ?_
  rw [ht r, hu r]

/-- What is represented has the coefficients that do not count as zero. -/
theorem Represents.hasCoeffs_cut (h0 : S.isZero 0 = true) (hn : n ≤ maxDimension)
    (h : mv.Represents S n x) : mv.HasCoeffs n fun r => S.cut (x r) := by
  obtain ⟨t, ht, rfl⟩ := h
  have hout : ∀ r, 2 ^ n ≤ r → Terms.coeff t r = 0 := by
    intro r hr
    rw [ht r, if_neg (not_lt.mpr hr)]
  refine ⟨(Terms.compact_spec h0 hn hout).1, fun r hr => ?_⟩
  rw [Terms.coeff_compact_cut h0 hn hout hr, ht r, if_pos hr]

theorem Represents.hasCoeffs (hE : S.IsExact) (hn : n ≤ maxDimension) (h : mv.Represents S n x) :
    mv.HasCoeffs n x := by
  simpa only [hE.cut_eq] using h.hasCoeffs_cut hE.isZero_zero hn

/-- The terms are the coefficients that do not count as zero. -/
theorem Represents.mem_terms_iff_isZero (h0 : S.isZero 0 = true) (hn : n ≤ maxDimension)
    (h : mv.Represents S n x) {r : Nat} {v : α} :
    (r, v) ∈ mv.terms ↔ r < 2 ^ n ∧ v = x r ∧ S.isZero v = false := by
  obtain ⟨t, ht, rfl⟩ := h
  obtain ⟨-, hterms⟩ := Terms.compact_spec (t := t) h0 hn fun b hb => by
    rw [ht b, if_neg (not_lt.mpr hb)]
  rw [hterms, ht r]
  by_cases hr : r < 2 ^ n
  · rw [if_pos hr, and_iff_right hr]
  · rw [if_neg hr]
    refine iff_of_false ?_ fun h => hr h.1
    rintro ⟨rfl, hne⟩
    rw [h0] at hne
    cases hne

theorem Represents.mem_terms_iff (hE : S.IsExact) (hn : n ≤ maxDimension)
    (h : mv.Represents S n x) {r : Nat} {v : α} :
    (r, v) ∈ mv.terms ↔ r < 2 ^ n ∧ v = x r ∧ v ≠ 0 := by
  rw [h.mem_terms_iff_isZero hE.isZero_zero hn, hE.isZero_eq_false_iff]

/-- With the coefficients of a multivector these are its terms without zeros. -/
theorem Represents.mem_terms_iff_mem (hE : S.IsExact) (hn : n ≤ maxDimension)
    (hmv' : mv'.InRange n) (h : mv.Represents S n mv'.coeff) {b : Nat} {v : α} :
    (b, v) ∈ mv.terms ↔ (b, v) ∈ mv'.terms ∧ v ≠ 0 := by
  rw [h.mem_terms_iff hE hn]
  constructor
  · rintro ⟨hb, hv, hne⟩
    exact ⟨(mem_terms_iff_coeff hn hmv' hb hne).mpr hv, hne⟩
  · rintro ⟨hmem, hne⟩
    have hb := lt_of_mem_terms hn hmv' hmem
    exact ⟨hb, (mem_terms_iff_coeff hn hmv' hb hne).mp hmem, hne⟩

end Represents

/-- A collection of terms of one grade can be given the form of that grade, without those that count
    as zero. -/
theorem ofOneGrade_spec_cut {S : Scalars α} (h0 : S.isZero 0 = true) {n k : Nat}
    (hn : n ≤ maxDimension) {t : Terms α} (hlt : ∀ b ∈ t, b < 2 ^ n)
    (hgrade : ∀ b ∈ t, grade b = k) :
    ∃ m, Terms.ofOneGrade S t k = .ok m ∧ m.HasCoeffs n (fun r => S.cut (Terms.coeff t r)) ∧
      ∀ s ∈ m.terms, grade s.1 = k := by
  have hsub : ∀ b ∈ Terms.dropZeros S t, b ∈ t := fun b hb => Std.ExtTreeMap.mem_of_mem_filter hb
  have hfind : (Terms.dropZeros S t).keys.find? (fun b => grade b != k) = none := by
    rw [List.find?_eq_none]
    intro b hb
    rw [Std.ExtTreeMap.mem_keys] at hb
    simp [hgrade b (hsub b hb)]
  obtain ⟨hrange, hterms⟩ := Terms.toRanks_spec hn (fun b hb => hlt b (hsub b hb))
    fun b hb => hgrade b (hsub b hb)
  refine ⟨Terms.toRanks (Terms.dropZeros S t) k, ?_, ⟨hrange, fun b hb => ?_⟩, fun s hs => ?_⟩
  · simp only [Terms.ofOneGrade, hfind]
  · rw [coeff_eq_of_terms hn hrange hterms hb, Terms.coeff_dropZeros_cut h0]
  · exact hgrade s.1 (hsub s.1 (Terms.mem_iff_exists_getElem?.mpr ⟨s.2, (hterms s.1 s.2).mp hs⟩))

end Multivector

end GeometricAlgebra
