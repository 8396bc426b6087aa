import GeometricAlgebra.BladeTree.Images
import GeometricAlgebra.Proofs.Multivector.Forms

set_option autoImplicit false

/-! # Updates of collected terms, under any arithmetic

Additions of scalars need not commute, so the order in which terms are collected can matter. It does
not where every blade comes once: an update looks at the coefficient of one blade and changes no
other (`Touches`), so updates of different blades can be exchanged (`Touches.comm`), and a fold over
terms of different blades does not depend on their order (`foldl_perm`).

For the same reason a collection stays within the blades it is told of (`Within`), and then
`compact` returns a multivector of the algebra with the terms that do not count as zero
(`toTerms_compact`). This is all that the operations of an algebra need where nothing is known about
the scalars. -/

namespace GeometricAlgebra

variable {α : Type}

namespace Terms

/-! ## One blade at a time -/

/-- The update looks at the coefficient of the blade `b` alone, and changes no other. -/
def Touches (b : Nat) (update : Terms α → Terms α) : Prop :=
  ∃ f : Option α → Option α, ∀ t, update t = t.alter b f

theorem getElem?_alter (t : Terms α) (b c : Nat) (f : Option α → Option α) :
    (t.alter b f)[c]? = if b = c then f t[b]? else t[c]? := by
  simp only [Std.ExtTreeMap.getElem?_alter, Nat.compare_eq_eq]

theorem touches_insert (b : Nat) (v : α) : Touches b fun t : Terms α => t.insert b v := by
  refine ⟨fun _ => some v, fun t => Std.ExtTreeMap.ext_getElem? fun {c} => ?_⟩
  rw [getElem?_alter, Std.ExtTreeMap.getElem?_insert]
  simp only [Nat.compare_eq_eq]

section Scalars

variable (S : Scalars α)

theorem touches_add (b : Nat) (v : α) : Touches b fun t => add S t b v := ⟨_, fun _ => rfl⟩

theorem touches_subtract (b : Nat) (v : α) : Touches b fun t => subtract S t b v :=
  ⟨_, fun _ => rfl⟩

theorem touches_addSigned (b : Nat) (s : Int) (v : α) : Touches b fun t => addSigned S t b s v := by
  unfold addSigned
  split
  · -- the sign zero leaves every coefficient as it is
    refine ⟨id, fun t => Std.ExtTreeMap.ext_getElem? fun {c} => ?_⟩
    rw [getElem?_alter]
    split
    · next h => rw [h, id]
    · rfl
  · split
    · exact touches_add S b v
    · split
      · exact touches_subtract S b v
      · exact touches_add S b _

end Scalars

/-! ## The order of updates -/

/-- Updates of different blades can be exchanged. -/
theorem Touches.comm {b c : Nat} {u v : Terms α → Terms α} (hu : Touches b u) (hv : Touches c v)
    (hbc : b ≠ c) (t : Terms α) : u (v t) = v (u t) := by
  obtain ⟨f, hf⟩ := hu
  obtain ⟨g, hg⟩ := hv
  rw [hf, hf, hg, hg]
  refine Std.ExtTreeMap.ext_getElem? fun {d} => ?_
  simp only [getElem?_alter, if_neg hbc, if_neg hbc.symm]
  by_cases hb : b = d
  · rw [if_pos hb, if_pos hb, if_neg fun hc => hbc (hb.trans hc.symm)]
  · rw [if_neg hb, if_neg hb]

/-- **Where every blade comes once, the order of updates does not matter.** -/
theorem foldl_perm {step : Terms α → Nat × α → Terms α}
    (hstep : ∀ s, Touches s.1 fun t => step t s) {l l' : List (Nat × α)} (h : l.Perm l')
    (hl : (l.map Prod.fst).Nodup) (t : Terms α) : l.foldl step t = l'.foldl step t := by
  refine h.foldl_eq' (fun s hs u hu t => ?_) t
  by_cases hsu : s.1 = u.1
  · rw [List.inj_on_of_nodup_map hl hs hu hsu]
  · exact (hstep u).comm (hstep s) (Ne.symm hsu) t

/-! ## The blades that are collected -/

section Blades

variable {P : Nat → Prop} {t : Terms α}

/-- An update adds no blade but its own. -/
theorem Touches.forall_mem {b : Nat} {u : Terms α → Terms α} (hu : Touches b u) (hb : P b)
    (ht : ∀ c ∈ t, P c) : ∀ c ∈ u t, P c := by
  intro c hc
  obtain ⟨f, hf⟩ := hu
  rw [hf] at hc
  obtain ⟨v, hv⟩ := mem_iff_exists_getElem?.mp hc
  rw [getElem?_alter] at hv
  split at hv
  · next h => rwa [← h]
  · exact ht c (mem_iff_exists_getElem?.mpr ⟨v, hv⟩)

/-- Neither do updates one after another. -/
theorem forall_mem_foldl {β : Type} {step : Terms α → β → Terms α} {key : β → Nat} {l : List β}
    (hstep : ∀ x ∈ l, Touches (key x) (fun t => step t x) ∧ P (key x)) (ht : ∀ c ∈ t, P c) :
    ∀ c ∈ l.foldl step t, P c :=
  List.foldlRecOn (motive := fun u : Terms α => ∀ c ∈ u, P c) l step ht fun _ hu x hx =>
    (hstep x hx).1.forall_mem (hstep x hx).2 hu

/-- What holds of all collections in a list, and of the empty one, holds of the one at a
    position. -/
theorem getD_of_forall {Q : Terms α → Prop} {l : List (Terms α)} (hempty : Q ∅)
    (h : ∀ t ∈ l, Q t) (i : Nat) : Q (l.getD i ∅) := by
  rw [List.getD_eq_getElem?_getD]
  cases hi : l[i]? with
  | none => exact hempty
  | some t => exact h t (List.mem_of_getElem? hi)

end Blades

/-- All blades belong to an `n`-dimensional algebra. -/
def Within (n : Nat) (t : Terms α) : Prop := ∀ b ∈ t, b < 2 ^ n

section Within

variable {n : Nat} {t : Terms α}

theorem within_empty : Within n (∅ : Terms α) := fun _ hb =>
  absurd hb Std.ExtTreeMap.not_mem_empty

theorem Touches.within {b : Nat} {u : Terms α → Terms α} (hu : Touches b u) (hb : b < 2 ^ n)
    (ht : Within n t) : Within n (u t) :=
  hu.forall_mem hb ht

theorem Within.foldl {β : Type} {step : Terms α → β → Terms α} {key : β → Nat} {l : List β}
    (hstep : ∀ x ∈ l, Touches (key x) (fun t => step t x) ∧ key x < 2 ^ n) (ht : Within n t) :
    Within n (l.foldl step t) :=
  forall_mem_foldl hstep ht

theorem within_ofList {l : List (Nat × α)} (hl : ∀ s ∈ l, s.1 < 2 ^ n) :
    Within n (.ofList l : Terms α) := by
  intro b hb
  rw [Std.ExtTreeMap.mem_ofList, List.contains_iff_mem] at hb
  obtain ⟨s, hs, rfl⟩ := List.mem_map.mp hb
  exact hl s hs

end Within

/-! ## Dropping zeros -/

section Zeros

variable {S : Scalars α}

theorem getElem?_dropZeros {t : Terms α} {b : Nat} {v : α} :
    (dropZeros S t)[b]? = some v ↔ t[b]? = some v ∧ S.isZero v = false := by
  rw [dropZeros, Std.ExtTreeMap.getElem?_filter', Option.filter_eq_some_iff, Bool.not_eq_true']

theorem dropZeros_idem (t : Terms α) : dropZeros S (dropZeros S t) = dropZeros S t := by
  refine Std.ExtTreeMap.ext_getElem? fun {b} => Option.ext fun v => ?_
  rw [getElem?_dropZeros, getElem?_dropZeros, and_assoc, and_self]

theorem mem_of_mem_dropZeros {t : Terms α} {b : Nat} (hb : b ∈ dropZeros S t) : b ∈ t := by
  obtain ⟨v, hv⟩ := mem_iff_exists_getElem?.mp hb
  exact mem_iff_exists_getElem?.mpr ⟨v, (getElem?_dropZeros.mp hv).1⟩

theorem Within.dropZeros {n : Nat} {t : Terms α} (ht : Within n t) : Within n (dropZeros S t) :=
  fun b hb => ht b (mem_of_mem_dropZeros hb)

/-- An outer product has no blades but the products of those of its factors that share no vector. -/
theorem forall_mem_wedge {P : Nat → Prop} {a b : Terms α}
    (h : ∀ s ∈ a, ∀ u ∈ b, s &&& u = 0 → P (s ^^^ u)) : ∀ c ∈ wedge S a b, P c := by
  intro c hc
  refine List.foldlRecOn (motive := fun t : Terms α => ∀ c ∈ t, P c) a.toList _
    (fun c hc => absurd hc Std.ExtTreeMap.not_mem_empty) (fun t ht s hs => ?_) c
    (mem_of_mem_dropZeros hc)
  refine List.foldlRecOn (motive := fun t : Terms α => ∀ c ∈ t, P c) b.toList _ ht
    fun t ht u hu => ?_
  split
  · next hdisjoint =>
      exact (touches_addSigned S _ _ _).forall_mem
        (h _ (mem_of_mem_toList hs) _ (mem_of_mem_toList hu) hdisjoint) ht
  · exact ht

theorem Within.wedge {n : Nat} {a b : Terms α} (ha : Within n a) (hb : Within n b) :
    Within n (wedge S a b) :=
  forall_mem_wedge fun s hs u hu _ => Nat.xor_lt_two_pow (ha s hs) (hb u hu)

end Zeros

/-! ## What is returned -/

section Compact

variable {S : Scalars α} {n : Nat} {t : Terms α} (hn : n ≤ maxDimension) (ht : Within n t)

include hn ht

theorem inRange_compact : (compact S t).InRange n := (pack_spec hn ht.dropZeros).1

/-- What is returned has the terms that do not count as zero. -/
theorem mem_terms_compact {b : Nat} {v : α} :
    (b, v) ∈ (compact S t).terms ↔ t[b]? = some v ∧ S.isZero v = false := by
  rw [compact, (pack_spec hn ht.dropZeros).2, getElem?_dropZeros]

theorem toTerms_compact : (compact S t).toTerms = dropZeros S t := by
  refine Std.ExtTreeMap.ext_getElem? fun {b} => Option.ext fun v => ?_
  rw [Multivector.getElem?_toTerms_iff hn (inRange_compact hn ht), mem_terms_compact hn ht,
    getElem?_dropZeros]

end Compact

end Terms

end GeometricAlgebra
