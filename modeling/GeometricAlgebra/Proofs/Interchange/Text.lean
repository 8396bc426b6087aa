import GeometricAlgebra.Proofs.Interchange.Document
import GeometricAlgebra.Proofs.Json.Written
import GeometricAlgebra.Proofs.Signature

set_option autoImplicit false

/-! # Interchange texts are read back if their numbers are finite

The document of a multivector is written with all its numbers, but JSON has no text for infinity and
for what is not a number: these are written as null, which is not read as a number. So a text is
read back iff every coefficient in it is finite (`Document.ofJson?_toJson`). Then the algebra is the
same, and the terms are those that are not zero, bit by bit. -/

namespace GeometricAlgebra

open Blade Coefficient

/-! ## Signatures -/

theorem Square.ofSign_sign (q : Square) : Square.ofSign q.sign = .ok q := by
  cases q <;> rfl

namespace Signature

theorem ofSigns_signs (sig : Signature) : ofSigns sig.signs = .ok sig := by
  have hsquares : sig.signs.mapM Square.ofSign = Except.ok sig.squares :=
    mapM_map_eq_pure fun q _ => Square.ofSign_sign q
  rw [ofSigns, hsquares]
  exact ofSquares_squares sig

theorem wellWritten_toJson (sig : Signature) : sig.toJson.WellWritten :=
  Json.wellWritten_array fun z _ => Json.wellWritten_int z

/-- **A signature is read back** from its list of squares. -/
theorem ofJson?_toJson (sig : Signature) : ofJson? sig.toJson = some sig := by
  have hsigns : sig.toJson.listOf? (Json.toInt? 32) = some sig.signs := by
    refine Json.listOf?_map fun z hz => ?_
    obtain ⟨q, -, rfl⟩ := List.mem_map.mp hz
    cases q
    · exact Json.toInt?_int (by decide) (by decide)
    · exact Json.toInt?_int (by decide) (by decide)
    · exact Json.toInt?_int (by decide) (by decide)
  rw [ofJson?, hsigns]
  show (ofSigns sig.signs).toOption = some sig
  rw [ofSigns_signs]
  rfl

end Signature

namespace Document

/-! ## Documents -/

theorem wellWritten_entryToJson (e : Entry Float) : (entryToJson e).WellWritten := by
  refine Json.wellWritten_record ?_
  have hblade := Json.wellWritten_nat e.blade
  have hvalue := Json.wellWritten_float e.value
  have htext : ∀ s, (Json.text s).WellWritten := fun s => Json.isWritten_escape s.toList
  cases e.name? <;> simp [hblade, hvalue, htext]

/-- An entry is read back iff its value is finite. -/
theorem entryOfJson?_entryToJson {e : Entry Float} (hblade : e.blade < longBound) :
    entryOfJson? (entryToJson e) = if e.value.isFinite then some e else none := by
  obtain ⟨b, name?, value⟩ := e
  have hid : (Json.nat b).toNat? longBound = some b := Json.toNat?_nat hblade
  have hvalue := Json.toFloat?_float value
  have hfields : (entryToJson ⟨b, name?, value⟩).fields? ["id", "blade", "value"]
      = some [some (.nat b), name?.map Json.text, some (.float value)] := by
    unfold entryToJson
    cases name? with
    | none => exact Json.fields?_record (by simp) _
    | some name => exact Json.fields?_record (by simp) _
  have hname : ((name?.map Json.text).getD .null).optional? Json.toText? = some name? := by
    cases name? with
    | none => rfl
    | some name =>
        show (Json.toText? (Json.text name)).map some = _
        rw [Json.toText?_text]
        rfl
  rw [entryOfJson?, hfields]
  simp only [Option.bind_eq_bind, Option.bind_some, hname, hid, hvalue]
  split <;> rfl

theorem wellWritten_toJson (d : Document Float) : d.toJson.WellWritten := by
  refine Json.wellWritten_record ?_
  have hentries := Json.wellWritten_array (l := d.entries) fun e _ => wellWritten_entryToJson e
  have hsignature := d.signature.wellWritten_toJson
  have htext : ∀ s, (Json.text s).WellWritten := fun s => Json.isWritten_escape s.toList
  simp [hentries, hsignature, htext]

/-- **A document is read back iff all its numbers are finite.** -/
theorem ofJson?_toJson {d : Document Float} (hblades : ∀ e ∈ d.entries, e.blade < longBound) :
    ofJson? d.toJson = if ∀ e ∈ d.entries, e.value.isFinite = true then some d else none := by
  have hfields : d.toJson.fields? ["version", "signature", "terms"]
      = some [some (.text d.version), some d.signature.toJson,
        some (.array (d.entries.map entryToJson))] :=
    Json.fields?_record (by simp) _
  rw [ofJson?, hfields]
  simp only [Option.bind_eq_bind, Option.bind_some, Option.getD_some, Json.toText?_text,
    Signature.ofJson?_toJson]
  split
  · next hfinite =>
      have hentries : (Json.array (d.entries.map entryToJson)).listOf? entryOfJson?
          = some d.entries := by
        refine Json.listOf?_map fun e he => ?_
        rw [entryOfJson?_entryToJson (hblades e he), if_pos (hfinite e he)]
      rw [hentries]
      rfl
  · next hinfinite =>
      simp only [not_forall] at hinfinite
      obtain ⟨e, he, hvalue⟩ := hinfinite
      have hnone : (Json.array (d.entries.map entryToJson)).listOf? entryOfJson? = none := by
        refine mapM_eq_none_of_mem (List.mem_map_of_mem he) ?_
        rw [entryOfJson?_entryToJson (hblades e he), if_neg hvalue]
      rw [hnone]
      rfl

end Document

namespace Interchange

/-! ## Texts -/

theorem write_eq_ok_iff {sig : Signature} {mv : Multivector Float} {text : String} :
    write sig mv = .ok text ↔ mv.validate sig.dimension = .ok () ∧
      text
        = (Document.toJson
          ⟨Document.currentVersion, sig, mv.terms.map Document.entryOf⟩).pretty := by
  rw [write, bind_eq_ok_iff]
  constructor
  · rintro ⟨d, hd, h⟩
    obtain ⟨hvalid, rfl⟩ := Document.ofMultivector_eq_ok_iff.mp hd
    exact ⟨hvalid, (Except.ok.inj h).symm⟩
  · rintro ⟨hvalid, rfl⟩
    exact ⟨_, Document.ofMultivector_eq_ok_iff.mpr ⟨hvalid, rfl⟩, rfl⟩

/-- The text of a document is read as the document, or not at all. -/
theorem read_pretty {d : Document Float} (hblades : ∀ e ∈ d.entries, e.blade < longBound) :
    read d.toJson.pretty
      = if ∀ e ∈ d.entries, e.value.isFinite = true then d.toMultivector
        else .error .malformedJson := by
  rw [read, Json.ofText?_pretty d.wellWritten_toJson, Option.bind_some,
    Document.ofJson?_toJson hblades]
  by_cases hfinite : ∀ e ∈ d.entries, e.value.isFinite = true
  · rw [if_pos hfinite, if_pos hfinite]
  · rw [if_neg hfinite, if_neg hfinite]

/-- The text of a multivector is read as its terms without the zeros, or not at all. -/
theorem read_of_write {sig : Signature} {mv : Multivector Float} {text : String}
    (htext : write sig mv = .ok text) :
    read text = if ∀ t ∈ mv.terms, t.2.isFinite = true
      then .ok (sig, Terms.compact (approximate (ofInt 0)) mv.toTerms)
      else .error .malformedJson := by
  obtain ⟨hvalid, rfl⟩ := write_eq_ok_iff.mp htext
  have hrange := ((Multivector.validate_eq_ok_iff _ _).mp hvalid).2
  have hblades : ∀ e ∈ mv.terms.map Document.entryOf, e.blade < longBound := by
    intro e he
    obtain ⟨t, ht, rfl⟩ := List.mem_map.mp he
    calc t.1 < 2 ^ sig.dimension := Multivector.lt_of_mem_terms sig.dimension_le hrange ht
      _ ≤ 2 ^ maxDimension := Nat.pow_le_pow_right (by decide) sig.dimension_le
      _ = longBound := (Nat.one_shiftLeft maxDimension).symm
  have hentries : (∀ e ∈ mv.terms.map Document.entryOf, e.value.isFinite = true)
      ↔ ∀ t ∈ mv.terms, t.2.isFinite = true := List.forall_mem_map
  rw [read_pretty hblades, Document.toMultivector_ofMultivector hvalid]
  simp only [hentries]

/-- **A text is read back iff all coefficients are finite.** A multivector has a text iff it belongs
    to the algebra. If its coefficients are finite, the text is read as the algebra and the terms
    whose value is not zero, bit by bit. If one of them is infinite or not a number, the text is
    refused. That finite numbers come back is an assumption about the JSON library that reads them,
    which `Json.ofText?` meets: it must round a text to the nearest number. One that may miss this
    by a bit reads the shortest text of a number as another number. -/
theorem read_write (sig : Signature) (mv : Multivector Float) :
    ((∃ text, write sig mv = .ok text) ↔ mv.validate sig.dimension = .ok ()) ∧
    ∀ text, write sig mv = .ok text →
      ((∀ b x, (b, x) ∈ mv.terms → x.isFinite = true) →
        ∃ mv', read text = .ok (sig, mv') ∧ (mv'.terms.map Prod.fst).Nodup ∧
          ∀ b x, (b, x) ∈ mv'.terms ↔ (b, x) ∈ mv.terms ∧ ¬ Document.IsZero x) ∧
      ((∃ b x, (b, x) ∈ mv.terms ∧ x.isFinite = false) → read text = .error .malformedJson) := by
  refine ⟨⟨?_, fun hvalid => ⟨_, write_eq_ok_iff.mpr ⟨hvalid, rfl⟩⟩⟩, fun text htext => ⟨?_, ?_⟩⟩
  · rintro ⟨text, htext⟩
    exact (write_eq_ok_iff.mp htext).1
  · intro hfinite
    have hvalid := (write_eq_ok_iff.mp htext).1
    have hall : ∀ t ∈ mv.terms, t.2.isFinite = true := fun t ht => hfinite t.1 t.2 ht
    rw [read_of_write htext, if_pos hall]
    refine ⟨_, rfl, Document.nodup_terms_read hvalid, fun b x => ?_⟩
    rw [Document.mem_terms_read hvalid, Document.isZero_eq_false_iff]
  · rintro ⟨b, x, hmem, hx⟩
    rw [read_of_write htext, if_neg]
    intro hfinite
    have hx' := hfinite (b, x) hmem
    rw [hx] at hx'
    cases hx'

/-- A number next to zero, one tenth and the largest number are read back, and `-0` is dropped. The
    square of a large vector is infinite, so it is not read back. -/
theorem read_write_special :
    let tiny := Float.ofBits 1
    let tenth := Float.ofBits 0x3fb999999999999a
    let largest := Float.ofBits 0x7fefffffffffffff
    let mv := Multivector.ofBlades [(1, tiny), (2, tenth), (3, Float.ofBits 0x8000000000000000),
      (7, largest)]
    let A : Algebra Float := ⟨.mixed, .floats, .auto⟩
    let vector := Multivector.ofBlades [(1, largest)]
    (∃ text mv', write .mixed mv = .ok text ∧ read text = .ok (.mixed, mv') ∧
      (1, tiny) ∈ mv'.terms ∧ (2, tenth) ∈ mv'.terms ∧ (7, largest) ∈ mv'.terms ∧
      ∀ x, (3, x) ∉ mv'.terms) ∧
    ∃ square text, A.product .geometric vector vector = .ok square ∧
      write .mixed square = .ok text ∧ read text = .error .malformedJson := by
  intro tiny tenth largest mv A vector
  constructor
  · have hvalid : mv.validate Signature.mixed.dimension = .ok () :=
      (Multivector.validate_eq_ok_iff _ _).mpr ⟨by decide, Terms.within_ofList (by decide)⟩
    have hlist : mv.terms = [(1, tiny), (2, tenth), (3, Float.ofBits 0x8000000000000000),
      (7, largest)] := rfl
    obtain ⟨hexists, hread⟩ := read_write .mixed mv
    obtain ⟨text, htext⟩ := hexists.mpr hvalid
    have hfinite : ∀ b x, (b, x) ∈ mv.terms → x.isFinite = true := by
      intro b x hx
      rw [hlist] at hx
      simp only [List.mem_cons, Prod.mk.injEq, List.not_mem_nil, or_false] at hx
      rcases hx with ⟨-, rfl⟩ | ⟨-, rfl⟩ | ⟨-, rfl⟩ | ⟨-, rfl⟩ <;> decide
    obtain ⟨mv', hmv', -, hterms⟩ := (hread text htext).1 hfinite
    simp only [hlist] at hterms
    refine ⟨text, mv', htext, hmv', ?_, ?_, ?_, fun x hx => ?_⟩
    · exact (hterms _ _).mpr ⟨by simp, by decide⟩
    · exact (hterms _ _).mpr ⟨by simp, by decide⟩
    · exact (hterms _ _).mpr ⟨by simp, by decide⟩
    · obtain ⟨hmem, hzero⟩ := (hterms _ _).mp hx
      simp at hmem
      subst hmem
      exact hzero (by decide)
  · -- nothing about the product depends on the arithmetic, so that it need not be computed with
    have hproduct : ∀ (S : Scalars Float) (x : Float),
        (⟨.mixed, S, .auto⟩ : Algebra Float).product .geometric
          (.ofBlades [(1, x)]) (.ofBlades [(1, x)])
          = .ok (Terms.compact S ((∅ : Terms Float).insert 0 (S.mul x x))) := fun S x => by cbv
    let infinity := Float.ofBits 0x7ff0000000000000
    have hinfinite : largest * largest = infinity := by decide
    have hmul : A.scalars.mul largest largest = largest * largest := rfl
    have hsquare := hproduct A.scalars largest
    rw [hmul, hinfinite] at hsquare
    have hwithin : Terms.Within A.dimension ((∅ : Terms Float).insert 0 infinity) := by
      intro b hb
      rw [Std.ExtTreeMap.mem_insert, Nat.compare_eq_eq] at hb
      rcases hb with rfl | hb
      · exact Nat.two_pow_pos _
      · exact absurd hb Std.ExtTreeMap.not_mem_empty
    have hmem : (0, infinity)
        ∈ (Terms.compact A.scalars ((∅ : Terms Float).insert 0 infinity)).terms := by
      rw [Terms.mem_terms_compact A.dimension_le hwithin]
      exact ⟨Std.ExtTreeMap.getElem?_insert_self, by decide⟩
    obtain ⟨hexists, hread⟩ := read_write .mixed _
    obtain ⟨text, htext⟩ := hexists.mpr (Algebra.canonical_compact hwithin).valid
    exact ⟨_, text, hsquare, htext, (hread text htext).2 ⟨0, _, hmem, by decide⟩⟩

end Interchange

end GeometricAlgebra
