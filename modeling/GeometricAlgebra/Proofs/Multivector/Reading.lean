import GeometricAlgebra.Multivector.Text
import GeometricAlgebra.Proofs.Blade.Grammar
import GeometricAlgebra.Proofs.Multivector.Collection

set_option autoImplicit false

/-! # The texts that list terms

A list of terms is its parts between commas, and each part is a name and a coefficient around an
equals sign, with white space where it does not matter (`IsTerm`). A name has neither white space
nor an equals sign in it and a coefficient no white space, so a part is split in the one way there
is (`splitTerm?_eq_some_iff`), and reading accepts these texts and no others (`readList_eq_ok_iff`).
The multivector of a list has the sums of its coefficients (`holds_of_ofText`). -/

namespace GeometricAlgebra

namespace Terms

open Text

variable {part name literal : List Char} {b : Nat} {x : Float}

/-! ## Terms -/

/-- The text is a coefficient: a number that is finite, without white space. -/
structure IsCoefficient (literal : List Char) (x : Float) : Prop where
  ne_nil : literal ≠ []
  isSpace : ∀ c ∈ literal, isSpace c = false
  reads : Decimal.readFloat? (String.ofList literal) = some x
  isFinite : x.isFinite = true

/-- The text is a term: the name of its blade, an equals sign and its coefficient, with white space
    around all of them. -/
inductive IsTerm : List Char → Nat × Float → Prop where
  | intro {u name v w literal z : List Char} {b : Nat} {x : Float} (hu : IsBlank u)
      (hname : ∀ c ∈ name, isSpace c = false) (hb : Blade.ofText name = .ok b) (hv : IsBlank v)
      (hw : IsBlank w) (hx : IsCoefficient literal x) (hz : IsBlank z) :
      IsTerm (u ++ (name ++ v ++ '=' :: (w ++ literal)) ++ z) (b, x)

theorem isNameCharacter_iff {c : Char} :
    isNameCharacter c = true ↔ c ≠ '=' ∧ isSpace c = false := by
  simp [isNameCharacter]

/-- A name and a coefficient are split in the one way there is, at the first equals sign. -/
theorem splitTerm?_eq_some_iff :
    splitTerm? part = some (name, literal) ↔
      (name ≠ [] ∧ ∀ c ∈ name, isNameCharacter c = true) ∧
      (literal ≠ [] ∧ ∀ c ∈ literal, isSpace c = false) ∧
      ∃ v w, IsBlank v ∧ IsBlank w ∧ part = name ++ v ++ '=' :: (w ++ literal) := by
  constructor
  · intro h
    simp only [splitTerm?] at h
    split at h
    · next rest heq =>
        rw [Option.ite_none_left_eq_some, Bool.or_eq_true, Bool.or_eq_true, not_or, not_or,
          List.isEmpty_iff, List.isEmpty_iff, List.any_eq_true, Option.some.injEq,
          Prod.mk.injEq] at h
        obtain ⟨⟨⟨hname, hliteral⟩, hspace⟩, rfl, rfl⟩ := h
        refine ⟨⟨hname, fun c hc => List.mem_takeWhile_imp hc⟩, ⟨hliteral, fun c hc => ?_⟩,
          (part.dropWhile isNameCharacter).takeWhile isSpace, rest.takeWhile isSpace,
          fun c hc => List.mem_takeWhile_imp hc, fun c hc => List.mem_takeWhile_imp hc, ?_⟩
        · rw [← Bool.not_eq_true]
          exact fun hc' => hspace ⟨c, hc, hc'⟩
        · rw [List.takeWhile_append_dropWhile, ← heq, List.append_assoc,
            List.takeWhile_append_dropWhile, List.takeWhile_append_dropWhile]
    · cases h
  · rintro ⟨⟨hname, hchars⟩, ⟨hliteral, hspace⟩, v, w, hv, hw, rfl⟩
    have hequals : ∀ c ∈ ('=' :: (w ++ literal)).head?, isSpace c = false := by
      intro c hc
      cases hc
      decide
    have hhead : ∀ c ∈ (v ++ '=' :: (w ++ literal)).head?, isNameCharacter c = false := by
      intro c hc
      cases v with
      | nil =>
          cases hc
          decide
      | cons d v =>
          cases hc
          simp [isNameCharacter, hv c List.mem_cons_self]
    have hfirst : ∀ c ∈ literal.head?, isSpace c = false := fun c hc =>
      hspace c (List.mem_of_mem_head? hc)
    have hany : literal.any isSpace = false := List.any_eq_false.mpr fun c hc => by
      simp [hspace c hc]
    simp [splitTerm?, List.append_assoc, takeWhile_append_of_head? hchars hhead,
      dropWhile_append_of_head? hchars hhead, dropWhile_append_of_head? hv hequals,
      dropWhile_append_of_head? hw hfirst, hname, hliteral, hany]

theorem readCoefficient_eq_ok_iff :
    readCoefficient literal = .ok x ↔
      Decimal.readFloat? (String.ofList literal) = some x ∧ x.isFinite = true := by
  rw [readCoefficient]
  cases h : Decimal.readFloat? (String.ofList literal) with
  | none => simp
  | some y =>
      simp only [Option.some.injEq]
      split
      · next hy =>
          rw [Except.ok.injEq]
          exact ⟨fun h => h ▸ ⟨rfl, hy⟩, fun h => h.1⟩
      · next hy =>
          refine iff_of_false (by simp) ?_
          rintro ⟨rfl, hx⟩
          exact hy hx

/-- **A part is read as a term iff it is one.** -/
theorem readTerm_eq_ok_iff {t : Nat × Float} : readTerm part = .ok t ↔ IsTerm part t := by
  constructor
  · intro h
    simp only [readTerm] at h
    split at h
    · cases h
    · next name literal hsplit =>
        obtain ⟨b, hb, h⟩ := bind_eq_ok_iff.mp h
        obtain ⟨x, hx, h⟩ := bind_eq_ok_iff.mp h
        cases h
        obtain ⟨⟨-, hname⟩, ⟨hne, hliteral⟩, v, w, hv, hw, hpart⟩ :=
          splitTerm?_eq_some_iff.mp hsplit
        obtain ⟨hreads, hfinite⟩ := readCoefficient_eq_ok_iff.mp hx
        obtain ⟨u, z, hu, hz, heq⟩ := exists_eq_append_trim part
        rw [heq, hpart]
        exact .intro hu (fun c hc => (isNameCharacter_iff.mp (hname c hc)).2) hb hv hw
          ⟨hne, hliteral, hreads, hfinite⟩ hz
  · rintro ⟨hu, hname, hb, hv, hw, hx, hz⟩
    rename_i u name v w literal z b x
    have hisName := Blade.ofText_eq_ok_iff.mp hb
    rw [trim_eq_self hname] at hisName
    have hnot : ¬ Blade.InName '=' := by decide
    have hchars : ∀ c ∈ name, isNameCharacter c = true := fun c hc =>
      isNameCharacter_iff.mpr ⟨fun h => hnot (h ▸ hisName.inName hc), hname c hc⟩
    -- the text starts with the name and ends with the coefficient, which have no white space
    have htight := isTight_append hisName.ne_nil hname (v ++ '=' :: w) hx.ne_nil hx.isSpace
    have hregroup : name ++ (v ++ '=' :: w) ++ literal = name ++ v ++ '=' :: (w ++ literal) := by
      simp
    rw [hregroup] at htight
    have htrim : trim (u ++ (name ++ v ++ '=' :: (w ++ literal)) ++ z)
        = name ++ v ++ '=' :: (w ++ literal) := trim_eq_iff.mpr ⟨htight, u, z, hu, hz, rfl⟩
    have hsplit : splitTerm? (name ++ v ++ '=' :: (w ++ literal)) = some (name, literal) :=
      splitTerm?_eq_some_iff.mpr
        ⟨⟨hisName.ne_nil, hchars⟩, ⟨hx.ne_nil, hx.isSpace⟩, v, w, hv, hw, rfl⟩
    simp only [readTerm, htrim, hsplit, hb, readCoefficient_eq_ok_iff.mpr ⟨hx.reads, hx.isFinite⟩]
    rfl

theorem readTerm_trim (part : List Char) : readTerm (trim part) = readTerm part := by
  rw [readTerm, readTerm, trim_of_isTight (isTight_trim part)]

/-! ## Lists -/

/-- The text is terms with commas between them. -/
def IsList (text : List Char) (l : List (Nat × Float)) : Prop :=
  ∃ ps : List (List Char), ps ≠ [] ∧ (∀ p ∈ ps, ',' ∉ p) ∧ text = [','].intercalate ps ∧
    List.Forall₂ IsTerm ps l

theorem readList_of_trim {text : String} (h : trim text.toList = [] ∨ trim text.toList = ['0']) :
    readList text = .ok [] :=
  if_pos h

/-- **A text is read as a list iff it is one**, unless it says that there are no terms. -/
theorem readList_eq_ok_iff {text : String} {l : List (Nat × Float)}
    (h : ¬ (trim text.toList = [] ∨ trim text.toList = ['0'])) :
    readList text = .ok l ↔ IsList text.toList l := by
  have hread : (readTerm ∘ trim : List Char → Except Error (Nat × Float)) = readTerm :=
    funext readTerm_trim
  have hparts : readList text = (Text.parts ',' text.toList).mapM readTerm := by
    rw [readList, if_neg h, ← hread, ← List.mapM_map, ← List.mapM_map,
      map_trim_parts_trim (by decide)]
  rw [hparts, mapM_eq_ok_iff]
  simp only [readTerm_eq_ok_iff]
  constructor
  · intro hterms
    obtain ⟨hne, hfree, heq⟩ := parts_eq_iff.mp (rfl : Text.parts ',' text.toList = _)
    exact ⟨_, hne, hfree, heq, hterms⟩
  · rintro ⟨ps, hne, hfree, heq, hterms⟩
    rwa [parts_eq_iff.mpr ⟨hne, hfree, heq⟩]

/-- The text is a term as it is written: the name that its blade has, an equals sign and a finite
    number, with white space around all of them. -/
inductive IsWritten : List Char → Nat × Float → Prop where
  | intro {u v w literal z : List Char} {b : Nat} {x : Float} (hu : IsBlank u)
      (hb : b < 2 ^ maxDimension) (hv : IsBlank v) (hw : IsBlank w)
      (hreads : Decimal.readFloat? (String.ofList literal) = some x) (hfinite : x.isFinite = true)
      (hz : IsBlank z) :
      IsWritten (u ++ ((Blade.name b).toList ++ v ++ '=' :: (w ++ literal)) ++ z) (b, x)

theorem IsWritten.isTerm {t : Nat × Float} (h : IsWritten part t) : IsTerm part t ∧ ',' ∉ part := by
  obtain ⟨hu, hb, hv, hw, hreads, hfinite, hz⟩ := h
  rename_i u v w literal z b x
  have hliteral : ∀ c ∈ literal, Decimal.InNumber c := fun c hc =>
    Decimal.inNumber_of_readFloat? hreads (by rwa [String.toList_ofList])
  have hne : literal ≠ [] := by
    rintro rfl
    cases hreads
  refine ⟨.intro hu (fun c hc => (Blade.inName_of_mem_name hc).isSpace) (Blade.ofText_name hb) hv hw
    ⟨hne, fun c hc => (hliteral c hc).isSpace, hreads, hfinite⟩ hz, ?_⟩
  have hblank : ∀ {cs : List Char}, IsBlank cs → ',' ∉ cs := fun hcs => hcs.not_mem (by decide)
  have hname : ',' ∉ (Blade.name b).toList := fun hc =>
    absurd (Blade.inName_of_mem_name hc) (by decide)
  have hnumber : ',' ∉ literal := fun hc => absurd (hliteral _ hc) (by decide)
  simp [hblank hu, hname, hblank hv, hblank hw, hnumber, hblank hz]

/-- Terms as they are written make a list. -/
theorem isList_of_isWritten {ps : List (List Char)} {l : List (Nat × Float)} (hl : l ≠ [])
    (h : List.Forall₂ IsWritten ps l) : IsList ([','].intercalate ps) l := by
  obtain ⟨hfree, hterms⟩ :=
    (List.forall₂_and_left (p := fun p => ',' ∉ p) ps l).mp
      (h.imp fun _ _ hp => And.intro hp.isTerm.2 hp.isTerm.1)
  refine ⟨ps, ?_, hfree, rfl, hterms⟩
  rintro rfl
  cases h
  exact hl rfl

theorem IsTerm.mem_equals {t : Nat × Float} (h : IsTerm part t) : '=' ∈ part := by
  obtain ⟨-, -, -, -, -, -, -⟩ := h
  simp

/-- A list is not one of the texts without terms, as it has an equals sign. -/
theorem IsList.not_trim {text : List Char} {l : List (Nat × Float)} (h : IsList text l) :
    ¬ (trim text = [] ∨ trim text = ['0']) := by
  obtain ⟨ps, hne, -, heq, hterms⟩ := h
  have hmem : '=' ∈ text := by
    cases hterms with
    | nil => exact absurd rfl hne
    | @cons p _ ps _ hp _ =>
        cases ps with
        | nil =>
            rw [heq, List.intercalate_singleton]
            exact hp.mem_equals
        | cons q ps =>
            rw [heq, List.intercalate_cons_cons]
            simp [hp.mem_equals]
  have hblank : ∀ {cs : List Char}, IsBlank cs → '=' ∉ cs := fun hcs => hcs.not_mem (by decide)
  obtain ⟨u, v, hu, hv, hsplit⟩ := exists_eq_append_trim text
  have htrim : '=' ∈ trim text := by
    rw [hsplit] at hmem
    simpa [hblank hu, hblank hv] using hmem
  rintro (h | h)
  · simp [h] at htrim
  · simp [h] at htrim

/-! ## Multivectors -/

section Multivectors

variable {α : Type} {S : Scalars α} {n : Nat} {text : String} {l : List (Nat × Float)}
  {mv : Multivector α}

/-- The coefficients of a list as scalars. -/
def ofFloats (S : Scalars α) (l : List (Nat × Float)) : List (Nat × α) :=
  l.map fun s => (s.1, S.ofFloat s.2)

/-- The terms of a list, added up. -/
def sumOf (S : Scalars α) (l : List (Nat × Float)) : Terms α :=
  (ofFloats S l).foldl (fun t s => add S t s.1 s.2) ∅

/-- A list is read as a multivector iff its blades belong to the algebra. -/
theorem ofText_eq_ok_iff (hn : n ≤ maxDimension) :
    Multivector.ofText S n text = .ok mv ↔
      ∃ l, readList text = .ok l ∧ (∀ s ∈ l, s.1 < 2 ^ n) ∧ mv = compact S (sumOf S l) := by
  rw [Multivector.ofText, bind_eq_ok_iff]
  refine exists_congr fun l => and_congr_right fun _ => ?_
  rw [bind_eq_ok_iff]
  simp only [foldlM_check_eq_ok_iff, Multivector.validateBlade_eq_ok_iff, sumOf, ofFloats,
    List.foldl_map]
  constructor
  · rintro ⟨t, ⟨hl, rfl⟩, h⟩
    cases h
    exact ⟨fun s hs => (hl s hs).2, rfl⟩
  · rintro ⟨hl, rfl⟩
    exact ⟨_, ⟨fun s hs => ⟨hn, hl s hs⟩, rfl⟩, rfl⟩

theorem lt_of_mem_ofFloats (hl : ∀ s ∈ l, s.1 < 2 ^ n) : ∀ s ∈ ofFloats S l, s.1 < 2 ^ n :=
  List.forall_mem_map.mpr hl

theorem within_sumOf (hl : ∀ s ∈ l, s.1 < 2 ^ n) : Within n (sumOf S l) :=
  within_empty.foldl fun s hs => ⟨touches_add S s.1 s.2, lt_of_mem_ofFloats hl s hs⟩

/-- A sum of terms has the sums of their coefficients. -/
theorem denotes_sumOf [CommRing α] (hS : S.IsRing) (hl : ∀ s ∈ l, s.1 < 2 ^ maxDimension) :
    Denotes (sumOf S l) (sumAt (ofFloats S l)) where
  within := within_sumOf hl
  coeff_eq b _ := by
    rw [sumOf, coeff_foldl (fun s _ t => coeff_add hS t s.1 b s.2), coeff_empty, zero_add, sumAt]

/-- **A list is read as the sums of its coefficients**, in the algebra that was asked for. -/
theorem holds_of_ofText [CommRing α] (hS : S.IsRing) (hE : S.IsExact) (hn : n ≤ maxDimension)
    (hmv : Multivector.ofText S n text = .ok mv) (hl : readList text = .ok l) :
    mv.validate n = .ok () ∧ Holds mv (sumAt (ofFloats S l)) := by
  obtain ⟨l', hl', hlt, rfl⟩ := (ofText_eq_ok_iff hn).mp hmv
  rw [hl] at hl'
  cases hl'
  refine ⟨(Multivector.validate_eq_ok_iff n _).mpr ⟨hn, (pack_spec hn ?_).1⟩, ?_⟩
  · exact (within_sumOf hlt).dropZeros
  · have hall := fun s hs => (hlt s hs).trans_le (Nat.pow_le_pow_right (by decide) hn)
    exact ((denotes_sumOf hS hall).finishes hS hE).compact

/-- **Lists of terms are read exactly.** A text without terms is read as none. Any other text is
    read as a list iff it is one, and so is what a list of terms is written as, with any white
    space. A multivector is read iff the algebra has all blades of the list, and then it has the
    sums of their coefficients, where these are not zero. -/
theorem readList_exact :
    (∀ text : String, trim text.toList = [] ∨ trim text.toList = ['0'] → readList text = .ok []) ∧
    (∀ (text : String) (l : List (Nat × Float)),
      ¬ (trim text.toList = [] ∨ trim text.toList = ['0']) →
        (readList text = .ok l ↔ IsList text.toList l)) ∧
    (∀ (ps : List (List Char)) (l : List (Nat × Float)), l ≠ [] → List.Forall₂ IsWritten ps l →
      readList (String.ofList ([','].intercalate ps)) = .ok l) ∧
    ∀ {α : Type} [CommRing α] (S : Scalars α) (n : Nat) (text : String), S.IsRing → S.IsExact →
      n ≤ maxDimension →
      ((∃ mv, Multivector.ofText S n text = .ok mv) ↔
        ∃ l, readList text = .ok l ∧ ∀ s ∈ l, Blade.requiredDimension s.1 ≤ n) ∧
      ∀ mv l, Multivector.ofText S n text = .ok mv → readList text = .ok l →
        mv.validate n = .ok () ∧ Holds mv (sumAt (ofFloats S l)) := by
  refine ⟨fun text => readList_of_trim, fun text l h => readList_eq_ok_iff h,
    fun ps l hl hps => ?_, fun S n text hS hE hn => ⟨?_, fun mv l => holds_of_ofText hS hE hn⟩⟩
  · have hlist := isList_of_isWritten hl hps
    rw [← String.toList_ofList (l := [','].intercalate ps)] at hlist
    exact (readList_eq_ok_iff hlist.not_trim).mpr hlist
  · simp only [ofText_eq_ok_iff hn, Multivector.requiredDimension_le_iff]
    exact ⟨fun ⟨_, l, hl, hlt, _⟩ => ⟨l, hl, hlt⟩, fun ⟨l, hl, hlt⟩ => ⟨_, l, hl, hlt, rfl⟩⟩

/-- A lone zero, a list with white space in it, and its multivector in an algebra that has all of
    its blades and in one that has not. -/
theorem readList_exact_samples :
    let text := " e1 =\t2,e1^e3=-0.5 "
    let l : List (Nat × Float) := [(1, 2), (5, -0.5)]
    readList "\t0 " = .ok [] ∧ readList text = .ok l ∧ IsList text.toList l ∧
      (∃ mv, Multivector.ofText Scalars.integers 3 text = .ok mv ∧ mv.validate 3 = .ok () ∧
        Holds mv (sumAt (ofFloats Scalars.integers l))) ∧
      ¬ ∃ mv, Multivector.ofText Scalars.integers 2 text = .ok mv := by
  intro text l
  have hspace : IsBlank [' '] := List.forall_mem_singleton.mpr (by decide)
  have htab : IsBlank ['\t'] := List.forall_mem_singleton.mpr (by decide)
  have hfirst := IsWritten.intro (b := 1) hspace (by decide) hspace htab
    (by decide +kernel : Decimal.readFloat? (String.ofList ['2']) = some 2) (by decide +kernel)
    isBlank_nil
  have hsecond := IsWritten.intro (b := 5) isBlank_nil (by decide) isBlank_nil isBlank_nil
    (by decide +kernel : Decimal.readFloat? (String.ofList ['-', '0', '.', '5']) = some (-0.5))
    (by decide +kernel) hspace
  obtain ⟨hnone, hiff, hwritten, hmultivector⟩ := readList_exact
  have htext := hwritten _ l (by simp [l]) (.cons hfirst (.cons hsecond .nil))
  have hread : readList text = .ok l := by
    rw [← htext]
    exact congrArg readList (by decide +kernel)
  have hnot : ¬ (trim text.toList = [] ∨ trim text.toList = ['0']) := by decide +kernel
  have hblades : ∀ s ∈ l, Blade.requiredDimension s.1 ≤ 3 := by decide +kernel
  obtain ⟨hok, hholds⟩ := hmultivector Scalars.integers 3 text Scalars.isRing_integers
    Scalars.isExact_integers (by decide)
  obtain ⟨hok', -⟩ := hmultivector Scalars.integers 2 text Scalars.isRing_integers
    Scalars.isExact_integers (by decide)
  obtain ⟨mv, hmv⟩ := hok.mpr ⟨l, hread, hblades⟩
  refine ⟨hnone _ (by decide +kernel), hread, (hiff text l hnot).mp hread,
    ⟨mv, hmv, hholds mv l hmv hread⟩, fun h => ?_⟩
  obtain ⟨l', hl', hlarge⟩ := hok'.mp h
  rw [hread] at hl'
  cases hl'
  exact absurd hlarge (by decide +kernel)

end Multivectors

end Terms

end GeometricAlgebra
