import GeometricAlgebra.Interchange.Document
import GeometricAlgebra.Proofs.Algebra.Canonical
import GeometricAlgebra.Proofs.Blade.Grammar
import GeometricAlgebra.Proofs.Decimal.Bits

set_option autoImplicit false

/-! # Which documents are read, and as what

An entry is read if it belongs to the algebra, fits its name and brings a new blade
(`addEntry_eq_ok_iff`). So a document is read iff each entry fits and no blade comes twice, which
does not depend on the order of the entries (`toMultivector_eq_ok_iff`).

A multivector has a document iff it belongs to the algebra, and its entries pass all of these checks
on the way back. Reading collects the terms that were written, and drops those that are zero, which
for floating-point numbers are the two zeros and nothing else. This goes by the bits of the numbers,
so that what is not a number is kept as it is (`toMultivector_terms`). -/

namespace GeometricAlgebra

open Blade Coefficient

namespace Document

variable {κ : Type}

/-- The entry of a term. -/
def entryOf (t : Nat × κ) : Entry κ := ⟨t.1, some (Blade.name t.1), t.2⟩

theorem ofMultivector_eq_ok_iff {sig : Signature} {mv : Multivector κ} {d : Document κ} :
    ofMultivector sig mv = .ok d ↔
      mv.validate sig.dimension = .ok () ∧ d = ⟨currentVersion, sig, mv.terms.map entryOf⟩ := by
  rw [ofMultivector, bind_eq_ok_iff]
  constructor
  · rintro ⟨⟨⟩, hvalid, h⟩
    cases h
    exact ⟨hvalid, rfl⟩
  · rintro ⟨hvalid, rfl⟩
    exact ⟨(), hvalid, rfl⟩

/-! ## Reading the entries -/

/-- The entry belongs to the algebra, and a name that it has is that of its blade. -/
structure Fits (sig : Signature) (e : Entry κ) : Prop where
  lt : e.blade < 2 ^ sig.dimension
  name : ∀ name ∈ e.name?, Blade.ofText name.toList = .ok e.blade

/-- The term of an entry. -/
def termOf (e : Entry κ) : Nat × κ := (e.blade, e.value)

theorem map_termOf_entryOf (l : List (Nat × κ)) : (l.map entryOf).map termOf = l := by
  rw [List.map_map]
  exact List.map_id l

theorem map_fst_termOf (entries : List (Entry κ)) :
    (entries.map termOf).map Prod.fst = entries.map Entry.blade := by
  rw [List.map_map]
  rfl

theorem checkName_eq_ok_iff {e : Entry κ} :
    checkName e = .ok () ↔ ∀ name ∈ e.name?, Blade.ofText name.toList = .ok e.blade := by
  unfold checkName
  cases e.name? with
  | none => simp
  | some name =>
      simp only [Option.mem_some_iff, forall_eq']
      rw [bind_eq_ok_iff]
      constructor
      · rintro ⟨b, hb, h⟩
        split_ifs at h with hne
        rw [hb, not_not.mp hne]
      · intro h
        exact ⟨e.blade, h, if_neg (not_not.mpr rfl)⟩

/-- An entry is added iff it fits and its blade is new. -/
theorem addEntry_eq_ok_iff {sig : Signature} {terms terms' : Terms κ} {e : Entry κ} :
    addEntry sig terms e = .ok terms' ↔
      Fits sig e ∧ e.blade ∉ terms ∧ terms' = terms.insert e.blade e.value := by
  have hblade : sig.validateBlade e.blade = .ok () ↔ e.blade < 2 ^ sig.dimension :=
    Multivector.validateBlade_eq_ok_iff.trans (and_iff_right sig.dimension_le)
  rw [addEntry, bind_eq_ok_iff]
  constructor
  · rintro ⟨⟨⟩, hlt, h⟩
    obtain ⟨⟨⟩, hname, h⟩ := bind_eq_ok_iff.mp h
    split_ifs at h with hnew
    cases h
    exact ⟨⟨hblade.mp hlt, checkName_eq_ok_iff.mp hname⟩, hnew, rfl⟩
  · rintro ⟨hfits, hnew, rfl⟩
    refine ⟨(), hblade.mpr hfits.lt, bind_eq_ok_iff.mpr
      ⟨(), checkName_eq_ok_iff.mpr hfits.name, ?_⟩⟩
    exact if_neg hnew

/-- Distinct blades, none of which has a term. -/
def Fresh (terms : Terms κ) (blades : List Nat) : Prop :=
  blades.Nodup ∧ ∀ b ∈ blades, b ∉ terms

/-- After a blade is read, the others must differ from it too. -/
theorem fresh_cons_iff {terms : Terms κ} {b : Nat} {blades : List Nat} (v : κ) :
    Fresh terms (b :: blades) ↔ b ∉ terms ∧ Fresh (terms.insert b v) blades := by
  simp only [Fresh, List.nodup_cons, List.forall_mem_cons, Std.ExtTreeMap.mem_insert,
    Nat.compare_eq_eq, not_or, forall_and, List.forall_mem_ne]
  tauto

theorem fresh_empty_iff {blades : List Nat} : Fresh (∅ : Terms κ) blades ↔ blades.Nodup :=
  and_iff_left fun _ _ => Std.ExtTreeMap.not_mem_empty

/-- **Entries are read iff each of them fits and their blades are fresh.** -/
theorem foldlM_addEntry_eq_ok_iff {sig : Signature} {entries : List (Entry κ)}
    {terms terms' : Terms κ} :
    entries.foldlM (addEntry sig) terms = .ok terms' ↔
      (∀ e ∈ entries, Fits sig e) ∧ Fresh terms (entries.map Entry.blade) ∧
        terms' = terms.insertMany (entries.map termOf) := by
  induction entries generalizing terms with
  | nil =>
      refine ⟨fun h => ?_, fun h => by rw [h.2.2]; rfl⟩
      cases h
      exact ⟨by simp, ⟨List.nodup_nil, by simp⟩, rfl⟩
  | cons e entries ih =>
      rw [List.foldlM_cons, bind_eq_ok_iff, List.forall_mem_cons, List.map_cons,
        fresh_cons_iff e.value, List.map_cons, termOf, Std.ExtTreeMap.insertMany_cons]
      constructor
      · rintro ⟨_, hadd, hrest⟩
        obtain ⟨hfits, hnew, rfl⟩ := addEntry_eq_ok_iff.mp hadd
        obtain ⟨hall, hfresh, h⟩ := ih.mp hrest
        exact ⟨⟨hfits, hall⟩, ⟨hnew, hfresh⟩, h⟩
      · rintro ⟨⟨hfits, hall⟩, ⟨hnew, hfresh⟩, h⟩
        exact ⟨_, addEntry_eq_ok_iff.mpr ⟨hfits, hnew, rfl⟩, ih.mpr ⟨hall, hfresh, h⟩⟩

/-! ## Which documents are read -/

/-- The version is known, every entry fits, and no blade comes twice. -/
structure Consistent (d : Document κ) : Prop where
  version : d.version = "1"
  fits : ∀ e ∈ d.entries, Fits d.signature e
  nodup : (d.entries.map Entry.blade).Nodup

/-- **Consistent documents are read, and no others.** -/
theorem toMultivector_eq_ok_iff [Coefficient κ] {d : Document κ} {r : Signature × Multivector κ} :
    d.toMultivector = .ok r ↔
      d.Consistent ∧ r = (d.signature,
        Terms.compact (approximate (ofInt 0)) (.ofList (d.entries.map termOf))) := by
  unfold toMultivector
  split
  · next hversion =>
      refine iff_of_false (by simp) fun h => hversion h.1.version
  · next hversion =>
      rw [bind_eq_ok_iff]
      simp only [foldlM_addEntry_eq_ok_iff, fresh_empty_iff,
        ← Std.ExtTreeMap.ofList_eq_insertMany_empty]
      constructor
      · rintro ⟨_, ⟨hfits, hnodup, rfl⟩, h⟩
        cases h
        exact ⟨⟨not_not.mp hversion, hfits, hnodup⟩, rfl⟩
      · rintro ⟨h, rfl⟩
        exact ⟨_, ⟨h.fits, h.nodup, rfl⟩, rfl⟩

/-- **What was written is read back**, without the terms that count as zero. -/
theorem toMultivector_ofMultivector [Coefficient κ] {sig : Signature} {mv : Multivector κ}
    (h : mv.validate sig.dimension = .ok ()) :
    toMultivector ⟨currentVersion, sig, mv.terms.map entryOf⟩
      = .ok (sig, Terms.compact (approximate (ofInt 0)) mv.toTerms) := by
  have hrange := ((Multivector.validate_eq_ok_iff _ _).mp h).2
  refine toMultivector_eq_ok_iff.mpr ⟨⟨rfl, List.forall_mem_map.mpr fun t ht => ?_, ?_⟩, ?_⟩
  · have hlt := Multivector.lt_of_mem_terms sig.dimension_le hrange ht
    refine ⟨hlt, fun name hname => ?_⟩
    cases hname
    exact ofText_name (hlt.trans_le (Nat.pow_le_pow_right (by decide) sig.dimension_le))
  · rw [← map_fst_termOf, map_termOf_entryOf]
    exact Multivector.nodup_terms sig.dimension_le hrange
  · rw [map_termOf_entryOf]
    rfl

/-! ## What is kept -/

section Read

variable [Coefficient κ] {sig : Signature} {mv : Multivector κ}
  (hvalid : mv.validate sig.dimension = .ok ())
include hvalid

theorem canonical_read :
    ({ signature := sig, scalars := approximate (ofInt 0) } : Algebra κ).Canonical
      (Terms.compact (approximate (ofInt 0)) mv.toTerms) :=
  Algebra.canonical_compact
    (A := { signature := sig, scalars := approximate (ofInt 0) }) (Algebra.within_toTerms hvalid)

/-- No blade comes twice in what is read. -/
theorem nodup_terms_read :
    ((Terms.compact (approximate (ofInt (κ := κ) 0)) mv.toTerms).terms.map Prod.fst).Nodup :=
  Multivector.nodup_terms sig.dimension_le
    ((Multivector.validate_eq_ok_iff _ _).mp (canonical_read hvalid).valid).2

/-- The terms that are read are those that were written, without those that count as zero. -/
theorem mem_terms_read (b : Nat) (x : κ) :
    (b, x) ∈ (Terms.compact (approximate (ofInt 0)) mv.toTerms).terms
      ↔ (b, x) ∈ mv.terms ∧ (approximate (ofInt 0)).isZero x = false := by
  have hrange := ((Multivector.validate_eq_ok_iff _ _).mp hvalid).2
  have hwithin : mv.toTerms.Within sig.dimension := Algebra.within_toTerms
    (A := { signature := sig, scalars := approximate (ofInt (κ := κ) 0) }) hvalid
  rw [Terms.mem_terms_compact sig.dimension_le hwithin,
    Multivector.getElem?_toTerms_iff sig.dimension_le hrange]

end Read

/-! ## Floating-point numbers

`Float` has one value for all that is not a number. To say that the bits of such a value are kept,
too, documents are taken over `RawFloat`, where every pattern of bits is a value of its own. -/

/-- The number is one of the two zeros. -/
def IsZero (x : Float) : Prop := x.toBits = 0 ∨ x.toBits = 0x8000000000000000

instance (x : Float) : Decidable (IsZero x) := inferInstanceAs (Decidable (_ ∨ _))

theorem isZero_iff (x : Float) : (approximate (ofInt 0 : Float)).isZero x = true ↔ IsZero x :=
  decide_eq_true_iff.trans (Binary.abs_le_zero_iff x)

theorem isZero_eq_false_iff (x : Float) :
    (approximate (ofInt 0 : Float)).isZero x = false ↔ ¬ IsZero x := by
  rw [← isZero_iff, Bool.not_eq_true]

/-- A floating-point number by its bits. -/
structure RawFloat where
  bits : UInt64
  deriving DecidableEq

namespace RawFloat

/-- The number that the bits stand for. -/
def number (x : RawFloat) : Float := Float.ofBits x.bits

/-- The bits of a number, which for all that is not a number are the same. -/
def ofNumber (x : Float) : RawFloat := ⟨x.toBits⟩

/-- The bits of a zero, with either sign. -/
def IsZero (x : RawFloat) : Prop := x.bits = 0 ∨ x.bits = 0x8000000000000000

instance (x : RawFloat) : Decidable x.IsZero := inferInstanceAs (Decidable (_ ∨ _))

end RawFloat

/-- Signs are single bits; all else goes by the numbers. -/
instance : Coefficient RawFloat where
  add x y := .ofNumber (x.number + y.number)
  sub x y := .ofNumber (x.number - y.number)
  neg x := ⟨x.bits ^^^ 0x8000000000000000⟩
  mul x y := .ofNumber (x.number * y.number)
  div x y := .ofNumber (x.number / y.number)
  ofInt z := .ofNumber (ofInt z)
  ofFloat := .ofNumber
  toFloat := RawFloat.number
  magnitude x := ⟨x.bits &&& 0x7fffffffffffffff⟩
  le x y := le x.number y.number
  lt x y := lt x.number y.number
  eq x y := eq x.number y.number
  isFinite x := isFinite x.number
  text x := text x.number

theorem RawFloat.isZero_iff (x : RawFloat) :
    (approximate (ofInt 0 : RawFloat)).isZero x = true ↔ x.IsZero :=
  decide_eq_true_iff.trans (Binary.ofBits_le_zero_iff x.bits)

/-- **Documents keep every term but the zeros.** A multivector has a document iff it belongs to the
    algebra. From this the algebra is read back, and a canonical multivector with exactly those
    terms whose value does not count as zero, each with the value it had; and this multivector is
    read back from its own document. This holds for numbers of every kind. Of floating-point
    numbers only `0` and `-0` count as zero, and of those given by their bits only the two patterns
    of these. So a value that is tiny, infinite or not a number comes back with the bits it had. -/
theorem toMultivector_terms [Coefficient κ] (sig : Signature) (mv : Multivector κ) :
    ((∃ d, ofMultivector sig mv = .ok d) ↔ mv.validate sig.dimension = .ok ()) ∧
    (∀ d, ofMultivector sig mv = .ok d →
      ∃ mv', d.toMultivector = .ok (sig, mv') ∧
        (mv'.terms.map Prod.fst).Nodup ∧
        (∀ b x, (b, x) ∈ mv'.terms ↔
          (b, x) ∈ mv.terms ∧ (approximate (ofInt 0)).isZero x = false) ∧
        ({ signature := sig, scalars := approximate (ofInt 0) } : Algebra κ).Canonical mv' ∧
        ∃ d', ofMultivector sig mv' = .ok d' ∧ d'.toMultivector = .ok (sig, mv')) ∧
    (∀ x : Float, (approximate (ofInt 0)).isZero x = true ↔ IsZero x) ∧
    ∀ x : RawFloat, (approximate (ofInt 0)).isZero x = true ↔ x.IsZero := by
  refine ⟨⟨?_, fun hvalid => ⟨_, ofMultivector_eq_ok_iff.mpr ⟨hvalid, rfl⟩⟩⟩, fun d hd => ?_,
    isZero_iff, RawFloat.isZero_iff⟩
  · rintro ⟨d, hd⟩
    exact (ofMultivector_eq_ok_iff.mp hd).1
  obtain ⟨hvalid, rfl⟩ := ofMultivector_eq_ok_iff.mp hd
  have hcanonical := canonical_read hvalid
  refine ⟨_, toMultivector_ofMultivector hvalid, nodup_terms_read hvalid, mem_terms_read hvalid,
    hcanonical, _, ofMultivector_eq_ok_iff.mpr ⟨hcanonical.valid, rfl⟩, ?_⟩
  rw [toMultivector_ofMultivector hcanonical.valid]
  exact congrArg (fun m => (Except.ok (sig, m) : Except Error _)) hcanonical.compact

/-- A number next to zero, infinity and two patterns of what is not a number are kept apart, and
    `-0` is dropped. -/
theorem toMultivector_terms_special :
    let tiny : RawFloat := ⟨1⟩
    let infinity : RawFloat := ⟨0x7ff0000000000000⟩
    let nan : RawFloat := ⟨0x7ff8000000000000⟩
    let payload : RawFloat := ⟨0xfff8000000000123⟩
    let mv := Multivector.ofBlades [(1, tiny), (2, infinity), (3, ⟨0x8000000000000000⟩),
      (6, payload), (7, nan)]
    ∃ d mv', ofMultivector .mixed mv = .ok d ∧ d.toMultivector = .ok (.mixed, mv') ∧
      (1, tiny) ∈ mv'.terms ∧ (2, infinity) ∈ mv'.terms ∧ (∀ x, (3, x) ∉ mv'.terms) ∧
      (∀ x, (6, x) ∈ mv'.terms ↔ x = payload) ∧ ∀ x, (7, x) ∈ mv'.terms ↔ x = nan := by
  intro tiny infinity nan payload mv
  have hvalid : mv.validate Signature.mixed.dimension = .ok () :=
    (Multivector.validate_eq_ok_iff _ _).mpr ⟨by decide, Terms.within_ofList (by decide)⟩
  obtain ⟨hexists, hread, -, hzero⟩ := toMultivector_terms .mixed mv
  obtain ⟨d, hd⟩ := hexists.mpr hvalid
  obtain ⟨mv', hmv', -, hterms, -⟩ := hread d hd
  have hlist : mv.terms = [(1, tiny), (2, infinity), (3, ⟨0x8000000000000000⟩), (6, payload),
    (7, nan)] := rfl
  have hkept : ∀ b x, (b, x) ∈ mv'.terms ↔ (b, x) ∈ mv.terms ∧ ¬ x.IsZero := fun b x => by
    rw [hterms, ← hzero, Bool.not_eq_true]
  simp only [hlist, List.mem_cons, Prod.mk.injEq, List.not_mem_nil] at hkept
  refine ⟨d, mv', hd, hmv', ?_, ?_, fun x hx => ?_, fun x => ?_, fun x => ?_⟩
  · exact (hkept _ _).mpr ⟨by simp, by decide⟩
  · exact (hkept _ _).mpr ⟨by simp, by decide⟩
  · obtain ⟨hmem, hx⟩ := (hkept _ _).mp hx
    simp at hmem
    subst hmem
    exact hx (by decide)
  · have hpayload : ¬ payload.IsZero := by decide
    rw [hkept]
    simp +contextual [hpayload]
  · have hnan : ¬ nan.IsZero := by decide
    rw [hkept]
    simp +contextual [hnan]

/-! ## Entries from elsewhere -/

/-- The terms of a document, without the zeros. -/
def nonzeroTerms (d : Document Float) : List (Nat × Float) :=
  (d.entries.map termOf).filter fun t => !decide (IsZero t.2)

theorem Consistent.perm {d : Document κ} (h : d.Consistent) {entries : List (Entry κ)}
    (hperm : entries.Perm d.entries) : ({ d with entries := entries } : Document κ).Consistent :=
  ⟨h.version, fun e he => h.fits e (hperm.mem_iff.mp he),
    (hperm.map Entry.blade).nodup_iff.mpr h.nodup⟩

/-- The order of terms of different blades does not matter. -/
theorem ofList_congr {l l' : List (Nat × κ)} (hl : (l.map Prod.fst).Nodup) (h : l.Perm l') :
    (Std.ExtTreeMap.ofList l : Terms κ) = .ofList l' := by
  have hl' : (l'.map Prod.fst).Nodup := (h.map Prod.fst).nodup_iff.mp hl
  refine Std.ExtTreeMap.ext_getElem? fun {b} => Option.ext fun v => ?_
  rw [Terms.getElem?_ofList_iff hl, Terms.getElem?_ofList_iff hl', h.mem_iff]

theorem dropZeros_ofList (S : Scalars κ) {l : List (Nat × κ)} (hl : (l.map Prod.fst).Nodup) :
    Terms.dropZeros S (.ofList l) = .ofList (l.filter fun t => !S.isZero t.2) := by
  have hfilter := hl.sublist (List.filter_sublist (p := fun t => !S.isZero t.2) |>.map Prod.fst)
  refine Std.ExtTreeMap.ext_getElem? fun {b} => Option.ext fun v => ?_
  rw [Terms.getElem?_dropZeros, Terms.getElem?_ofList_iff hl, Terms.getElem?_ofList_iff hfilter,
    List.mem_filter, Bool.not_eq_true']

theorem Consistent.nodup_terms {d : Document κ} (h : d.Consistent) :
    ((d.entries.map termOf).map Prod.fst).Nodup := by
  rw [map_fst_termOf]
  exact h.nodup

/-- A document that is read gives the compact form of its terms. -/
theorem Consistent.compact_eq {d : Document Float} (h : d.Consistent) :
    Terms.compact (approximate (ofInt 0)) (.ofList (d.entries.map termOf))
      = Terms.pack (.ofList d.nonzeroTerms) := by
  have hzero : ∀ x, (approximate (ofInt 0 : Float)).isZero x = decide (IsZero x) := fun x =>
    Bool.eq_iff_iff.mpr ((isZero_iff x).trans decide_eq_true_iff.symm)
  rw [Terms.compact, dropZeros_ofList _ h.nodup_terms]
  simp only [hzero]
  rfl

theorem Consistent.mem_terms_pack {d : Document Float} (h : d.Consistent) {b : Nat} {x : Float} :
    (b, x) ∈ (Terms.pack (.ofList d.nonzeroTerms)).terms ↔ (b, x) ∈ d.nonzeroTerms := by
  have hnodup : (d.nonzeroTerms.map Prod.fst).Nodup :=
    h.nodup_terms.sublist (List.filter_sublist.map Prod.fst)
  have hwithin : (Std.ExtTreeMap.ofList d.nonzeroTerms : Terms Float).Within
      d.signature.dimension := by
    refine Terms.within_ofList fun t ht => ?_
    obtain ⟨e, he, rfl⟩ := List.mem_map.mp (List.mem_of_mem_filter ht)
    exact (h.fits e he).lt
  rw [(Terms.pack_spec d.signature.dimension_le hwithin).2, Terms.getElem?_ofList_iff hnodup]

/-- **Consistent documents are read, in any order of their entries.** A document is read iff its
    version is known, every entry belongs to the algebra and fits its name, and no blade comes
    twice. It then gives its algebra and the compact form of its terms, of which only those with the
    value `0` or `-0` are left out. Another order of the entries is read iff this one is, as the
    same. -/
theorem toMultivector_consistent (d : Document Float) :
    ((∃ r, d.toMultivector = .ok r) ↔ d.Consistent) ∧
    (∀ r, d.toMultivector = .ok r →
      r = (d.signature, Terms.pack (.ofList d.nonzeroTerms)) ∧
        ∀ b x, (b, x) ∈ r.2.terms ↔ (b, x) ∈ d.nonzeroTerms) ∧
    ∀ entries : List (Entry Float), entries.Perm d.entries →
      ({ d with entries := entries } : Document Float).toMultivector.toOption
        = d.toMultivector.toOption := by
  refine ⟨⟨fun ⟨r, h⟩ => (toMultivector_eq_ok_iff.mp h).1,
    fun h => ⟨_, toMultivector_eq_ok_iff.mpr ⟨h, rfl⟩⟩⟩, fun r hr => ?_, fun entries hperm => ?_⟩
  · obtain ⟨h, rfl⟩ := toMultivector_eq_ok_iff.mp hr
    rw [h.compact_eq]
    exact ⟨rfl, fun b x => h.mem_terms_pack⟩
  · refine Option.ext fun r => ?_
    rw [toOption_eq_some_iff, toOption_eq_some_iff, toMultivector_eq_ok_iff,
      toMultivector_eq_ok_iff]
    constructor
    · rintro ⟨h, rfl⟩
      have hd : d.Consistent := h.perm hperm.symm
      exact ⟨hd, by rw [ofList_congr h.nodup_terms (hperm.map termOf)]⟩
    · rintro ⟨h, rfl⟩
      exact ⟨h.perm hperm, by rw [ofList_congr h.nodup_terms (hperm.symm.map termOf)]⟩

/-- Three entries in two orders, of which one has no name and one is a zero. With the zero under a
    blade that comes again, the document is not read. -/
theorem toMultivector_consistent_orders :
    let entry (b : Nat) (name? : Option String) (x : Float) : Entry Float := ⟨b, name?, x⟩
    let d : Document Float :=
      ⟨"1", .mixed, [entry 4 (some "e3") 1, entry 3 (some "e01e2") 0, entry 1 none 2]⟩
    let d' : Document Float :=
      ⟨"1", .mixed, [entry 3 (some "e01e2") 0, entry 1 none 2, entry 4 (some "e3") 1]⟩
    let twice : Document Float := ⟨"1", .mixed, [entry 1 none 0, entry 1 none 2]⟩
    (∃ r, d.toMultivector = .ok r ∧ d'.toMultivector = .ok r ∧ r.1 = .mixed ∧ (1, 2) ∈ r.2.terms ∧
      (4, 1) ∈ r.2.terms ∧ ∀ x, (3, x) ∉ r.2.terms) ∧
    ¬ ∃ r, twice.toMultivector = .ok r := by
  intro entry d d' twice
  have hfits : ∀ e ∈ d.entries, Fits Signature.mixed e := by
    have hthird : Blade.ofText "e3".toList = .ok 4 := by cbv
    have hspelled : Blade.ofText "e01e2".toList = .ok 3 := by cbv
    simp only [d, entry, List.forall_mem_cons]
    refine ⟨⟨by decide, ?_⟩, ⟨by decide, ?_⟩, ⟨by decide, ?_⟩, by simp⟩
    · simpa using hthird
    · simpa using hspelled
    · simp
  have hlist : d.nonzeroTerms = [(4, 1), (1, 2)] := by
    have hzero : IsZero 0 ∧ ¬ IsZero 1 ∧ ¬ IsZero 2 := by decide +kernel
    simp [nonzeroTerms, d, entry, termOf, hzero]
  obtain ⟨hread, hterms, horder⟩ := toMultivector_consistent d
  obtain ⟨r, hr⟩ := hread.mpr ⟨rfl, hfits, by decide⟩
  obtain ⟨hresult, hmem⟩ := hterms r hr
  refine ⟨⟨r, hr, ?_, congrArg Prod.fst hresult, ?_, ?_, ?_⟩, ?_⟩
  · have hperm : d'.entries.Perm d.entries :=
      (List.perm_append_singleton (entry 4 (some "e3") 1) [_, _])
    have hsame := horder d'.entries hperm
    rw [toOption_eq_some_iff.mpr hr, toOption_eq_some_iff] at hsame
    exact hsame
  · rw [hmem, hlist]
    simp
  · rw [hmem, hlist]
    simp
  · intro x hx
    rw [hmem, hlist] at hx
    simp at hx
  · rw [(toMultivector_consistent twice).1]
    intro h
    exact absurd h.nodup (by decide)

end Document

end GeometricAlgebra
