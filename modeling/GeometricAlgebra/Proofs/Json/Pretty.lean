import Mathlib
import GeometricAlgebra.Json.Parser
import GeometricAlgebra.Json.Printer
import GeometricAlgebra.Proofs.Decimal.Digits

set_option autoImplicit false

/-! # What is written in lines is read back

A value has its tokens, whatever the layout of its text. Cutting the text of several lines gives
these tokens (`scan_prettyChars`), as long as the numbers and strings in it are well written and
what follows a number cannot be taken for more of it. Reading the tokens gives the value, for
whatever is still open around it (`foldlM_tokens`). Both go by induction on the value, with the
items of arrays and the members of objects one after another. -/

namespace GeometricAlgebra

namespace Json

open Token

/-! ## Well-written values -/

/-- The text between quotes ends where the next quote is. -/
def IsWritten (written : List Char) : Prop :=
  ∀ rest, readString? (written ++ '"' :: rest) = some (written, rest)

mutual

/-- All numbers and strings in the value are well written. -/
def WellWritten : Json → Prop
  | .null => True
  | .bool _ => True
  | .number written => isNumber written = true
  | .string written => IsWritten written
  | .array items => WellWrittenItems items
  | .object members => WellWrittenMembers members

/-- All items of an array are well written. -/
def WellWrittenItems : List Json → Prop
  | [] => True
  | item :: rest => WellWritten item ∧ WellWrittenItems rest

/-- All members of an object are well written. -/
def WellWrittenMembers : List (List Char × Json) → Prop
  | [] => True
  | (name, value) :: rest => IsWritten name ∧ WellWritten value ∧ WellWrittenMembers rest

end

theorem wellWrittenItems_iff {items : List Json} :
    WellWrittenItems items ↔ ∀ item ∈ items, WellWritten item := by
  induction items with
  | nil => simp [WellWrittenItems]
  | cons item rest ih => rw [WellWrittenItems, ih, List.forall_mem_cons]

theorem wellWrittenMembers_iff {members : List (List Char × Json)} :
    WellWrittenMembers members ↔ ∀ m ∈ members, IsWritten m.1 ∧ WellWritten m.2 := by
  induction members with
  | nil => simp [WellWrittenMembers]
  | cons m rest ih => rw [WellWrittenMembers, ih, List.forall_mem_cons, and_assoc]

/-! ## Tokens -/

mutual

/-- The tokens of a value. -/
def tokens : Json → List Token
  | .null => [.null]
  | .bool b => [.bool b]
  | .number written => [.number written]
  | .string written => [.string written]
  | .array items => .openArray :: (itemTokens items ++ [.closeArray])
  | .object members => .openObject :: (memberTokens members ++ [.closeObject])

/-- The tokens of the items of an array. -/
def itemTokens : List Json → List Token
  | [] => []
  | [item] => tokens item
  | item :: rest => tokens item ++ .comma :: itemTokens rest

/-- The tokens of the members of an object. -/
def memberTokens : List (List Char × Json) → List Token
  | [] => []
  | [(name, value)] => .string name :: .colon :: tokens value
  | (name, value) :: rest => .string name :: .colon :: (tokens value ++ .comma :: memberTokens rest)

end

/-! ## The characters of a number -/

section Numbers

variable {cs : List Char}

theorem isNumberChar_of_isDigit {c : Char} (hc : Decimal.isDigit c = true) :
    isNumberChar c = true := by
  simp [isNumberChar, hc]

theorem isNumberChar_of_isDigits (h : isDigits cs = true) : ∀ c ∈ cs, isNumberChar c = true := by
  rw [isDigits, Bool.and_eq_true] at h
  exact fun c hc => isNumberChar_of_isDigit (List.all_eq_true.mp h.2 c hc)

theorem isNumberChar_of_isExponent (h : isExponent cs = true) :
    ∀ c ∈ cs, isNumberChar c = true := by
  cases cs with
  | nil => simp
  | cons e cs =>
      simp only [isExponent.eq_def, Bool.and_eq_true, Bool.or_eq_true, beq_iff_eq] at h
      obtain ⟨he, hdigits⟩ := h
      have hmark : isNumberChar e = true := by rcases he with rfl | rfl <;> rfl
      refine List.forall_mem_cons.mpr ⟨hmark, ?_⟩
      split at hdigits
      · exact List.forall_mem_cons.mpr ⟨rfl, isNumberChar_of_isDigits hdigits⟩
      · exact List.forall_mem_cons.mpr ⟨rfl, isNumberChar_of_isDigits hdigits⟩
      · exact isNumberChar_of_isDigits hdigits

/-- What starts with digits consists of characters of numbers if the rest of it does. -/
theorem isNumberChar_of_dropWhile
    (h : ∀ c ∈ cs.dropWhile Decimal.isDigit, isNumberChar c = true) :
    ∀ c ∈ cs, isNumberChar c = true := by
  intro c hc
  rw [← List.takeWhile_append_dropWhile (p := Decimal.isDigit) (l := cs), List.mem_append] at hc
  rcases hc with hc | hc
  · exact isNumberChar_of_isDigit (List.mem_takeWhile_imp hc)
  · exact h c hc

theorem isNumberChar_of_isTail (h : isTail cs = true) : ∀ c ∈ cs, isNumberChar c = true := by
  unfold isTail at h
  split at h
  · rw [Bool.and_eq_true] at h
    exact List.forall_mem_cons.mpr
      ⟨rfl, isNumberChar_of_dropWhile (isNumberChar_of_isExponent h.2)⟩
  · exact isNumberChar_of_isExponent h

theorem isNumberChar_of_isNumber (h : isNumber cs = true) : ∀ c ∈ cs, isNumberChar c = true := by
  have hunsigned : ∀ {cs : List Char}, isUnsigned cs = true → ∀ c ∈ cs, isNumberChar c = true := by
    intro cs h
    rw [isUnsigned, Bool.and_eq_true] at h
    exact isNumberChar_of_dropWhile (isNumberChar_of_isTail h.2)
  unfold isNumber at h
  split at h
  · exact List.forall_mem_cons.mpr ⟨rfl, hunsigned h⟩
  · exact hunsigned h

end Numbers

/-! ## Cutting a text -/

section Scan

variable {c : Char} {cs rest : List Char} {t : Token}

theorem scan_space (hc : Token.isSpace c = true) : scan (c :: cs) = scan cs := by
  rw [scan, if_pos hc]

theorem scan_of_next? (hc : Token.isSpace c = false) (h : next? c cs = some (t, rest)) :
    scan (c :: cs) = (scan rest).map (t :: ·) := by
  rw [scan, if_neg (by simp [hc])]
  split
  · next hnone => simp [h] at hnone
  · next t' rest' hsome =>
      rw [h] at hsome
      cases hsome
      rfl

theorem scan_of_ofChar? (h : ofChar? c = some t) : scan (c :: cs) = (scan cs).map (t :: ·) := by
  refine scan_of_next? ?_ (by rw [next?, h])
  by_contra hspace
  simp only [Token.isSpace, Bool.not_eq_false, Bool.or_eq_true, beq_iff_eq] at hspace
  rcases hspace with ((rfl | rfl) | rfl) | rfl <;> simp [ofChar?] at h

theorem scan_newLine (depth : Nat) : scan (newLine depth ++ rest) = scan rest := by
  have hspaces : ∀ n, scan (List.replicate n ' ' ++ rest) = scan rest := by
    intro n
    induction n with
    | zero => rfl
    | succ n ih => rw [List.replicate_succ, List.cons_append, scan_space (by decide), ih]
  rw [newLine, List.cons_append, scan_space (by decide), hspaces]

theorem scan_quoted {written : List Char} (h : IsWritten written) :
    scan (quoted written ++ rest) = (scan rest).map (.string written :: ·) := by
  have hquoted : quoted written ++ rest = '"' :: (written ++ '"' :: rest) := by simp [quoted]
  rw [hquoted]
  refine scan_of_next? (by decide) ?_
  rw [next?, h rest]
  rfl

/-- No other token starts with a character of a number. -/
theorem next?_of_isNumberChar (hc : isNumberChar c = true) :
    Token.isSpace c = false ∧ next? c cs = number? c cs := by
  have hne : ∀ d, isNumberChar d = false → c ≠ d := by
    rintro d hd rfl
    rw [hc] at hd
    cases hd
  have hspace : Token.isSpace c = false := by
    simp only [Token.isSpace, Bool.or_eq_false_iff, beq_eq_false_iff_ne]
    exact ⟨⟨⟨hne ' ' rfl, hne '\n' rfl⟩, hne '\t' rfl⟩, hne '\r' rfl⟩
  have hchar : ofChar? c = none := by
    rw [ofChar?, if_neg (hne '[' rfl), if_neg (hne ']' rfl), if_neg (hne '\x7b' rfl),
      if_neg (hne '\x7d' rfl), if_neg (hne ',' rfl), if_neg (hne ':' rfl)]
  have hwords : words.find? (fun (w : Char × List Char × Token) => w.1 == c) = none := by
    rw [List.find?_eq_none]
    intro w hw
    have hw' : isNumberChar w.1 = false := by
      revert w
      decide
    simpa using (hne w.1 hw').symm
  refine ⟨hspace, ?_⟩
  rw [next?, hchar]
  simp only [if_neg (hne '"' rfl), word?, hwords, Option.none_or]

theorem scan_number {written : List Char} (h : isNumber written = true)
    (hrest : ∀ c ∈ rest.head?, isNumberChar c = false) :
    scan (written ++ rest) = (scan rest).map (.number written :: ·) := by
  have hall := isNumberChar_of_isNumber h
  cases written with
  | nil => cases h
  | cons c cs =>
      have hcs : ∀ d ∈ cs, isNumberChar d = true := fun d hd => hall d (List.mem_cons_of_mem c hd)
      obtain ⟨hspace, hnext⟩ : Token.isSpace c = false ∧
          next? c (cs ++ rest) = number? c (cs ++ rest) :=
        next?_of_isNumberChar (hall c List.mem_cons_self)
      rw [List.cons_append]
      refine scan_of_next? hspace ?_
      rw [hnext, number?, takeWhile_append_of_head? hcs hrest, dropWhile_append_of_head? hcs hrest]
      exact if_pos h

theorem head?_newLine {depth : Nat} :
    ∀ c ∈ (newLine depth ++ rest).head?, isNumberChar c = false := by
  rw [newLine, List.cons_append, List.head?_cons]
  simp only [Option.mem_some_iff, forall_eq']
  rfl

/-- Neither a comma nor a new line goes on with a number. -/
theorem head?_comma : ∀ c ∈ (',' :: rest).head?, isNumberChar c = false := by
  simp only [List.head?_cons, Option.mem_some_iff, forall_eq']
  rfl

end Scan

theorem scan_word {c : Char} {word rest : List Char} {t : Token} (h : (c, word, t) ∈ words) :
    scan (c :: (word ++ rest)) = (scan rest).map (t :: ·) := by
  simp only [words, List.mem_cons, List.not_mem_nil, or_false] at h
  rcases h with h | h | h
  all_goals
    cases h
    exact scan_of_next? (by decide) (by simp [next?, word?, ofChar?, words, afterWord?])

mutual

/-- **The text of several lines is cut into the tokens of its value.** -/
theorem scan_prettyChars (j : Json) (h : WellWritten j) (depth : Nat) (rest : List Char)
    (hrest : ∀ c ∈ rest.head?, isNumberChar c = false) :
    scan (prettyChars depth j ++ rest) = (scan rest).map (tokens j ++ ·) := by
  match j, h with
  | .null, _ => exact scan_word (c := 'n') (t := .null) (by decide)
  | .bool true, _ => exact scan_word (c := 't') (t := .bool true) (by decide)
  | .bool false, _ => exact scan_word (c := 'f') (t := .bool false) (by decide)
  | .number written, h => exact scan_number h hrest
  | .string written, h => exact scan_quoted h
  | .array [], _ =>
      simp only [prettyChars, List.cons_append, List.nil_append]
      rw [scan_of_ofChar? rfl, scan_of_ofChar? rfl, Option.map_map]
      rfl
  | .array (item :: items), h =>
      have hitems := scan_prettyItems (item :: items) h (List.cons_ne_nil _ _) (depth + 1)
        (newLine depth ++ ']' :: rest) head?_newLine
      simp only [prettyChars, List.cons_append, List.append_assoc, List.nil_append]
      rw [scan_of_ofChar? rfl, hitems, scan_newLine, scan_of_ofChar? rfl, Option.map_map,
        Option.map_map]
      simp [tokens, Function.comp_def]
  | .object [], _ =>
      simp only [prettyChars, List.cons_append, List.nil_append]
      rw [scan_of_ofChar? rfl, scan_of_ofChar? rfl, Option.map_map]
      rfl
  | .object (m :: members), h =>
      have hmembers := scan_prettyMembers (m :: members) h (List.cons_ne_nil _ _) (depth + 1)
        (newLine depth ++ '\x7d' :: rest) head?_newLine
      simp only [prettyChars, List.cons_append, List.append_assoc, List.nil_append]
      rw [scan_of_ofChar? rfl, hmembers, scan_newLine, scan_of_ofChar? rfl, Option.map_map,
        Option.map_map]
      simp [tokens, Function.comp_def]

/-- The items of an array give their tokens, between commas. -/
theorem scan_prettyItems (items : List Json) (h : WellWrittenItems items) (hne : items ≠ [])
    (depth : Nat) (rest : List Char) (hrest : ∀ c ∈ rest.head?, isNumberChar c = false) :
    scan (prettyItems depth items ++ rest) = (scan rest).map (itemTokens items ++ ·) := by
  match items, h, hne with
  | [item], h, _ =>
      rw [prettyItems, List.append_assoc, scan_newLine, scan_prettyChars item h.1 depth rest hrest]
      rfl
  | item :: item' :: items, h, _ =>
      have hlater := scan_prettyItems (item' :: items) h.2 (List.cons_ne_nil _ _) depth rest hrest
      simp only [prettyItems, List.append_assoc, List.cons_append]
      rw [scan_newLine, scan_prettyChars item h.1 depth _ head?_comma, scan_of_ofChar? rfl, hlater,
        Option.map_map, Option.map_map]
      simp [itemTokens, Function.comp_def]

/-- The members of an object give their tokens, between commas. -/
theorem scan_prettyMembers (members : List (List Char × Json)) (h : WellWrittenMembers members)
    (hne : members ≠ []) (depth : Nat) (rest : List Char)
    (hrest : ∀ c ∈ rest.head?, isNumberChar c = false) :
    scan (prettyMembers depth members ++ rest) = (scan rest).map (memberTokens members ++ ·) := by
  match members, h, hne with
  | [(name, value)], h, _ =>
      simp only [prettyMembers, List.append_assoc, List.cons_append]
      rw [scan_newLine, scan_quoted h.1, scan_of_ofChar? rfl, scan_space (by decide),
        scan_prettyChars value h.2.1 depth rest hrest, Option.map_map, Option.map_map]
      rfl
  | (name, value) :: m :: members, h, _ =>
      have hlater :=
        scan_prettyMembers (m :: members) h.2.2 (List.cons_ne_nil _ _) depth rest hrest
      simp only [prettyMembers, List.append_assoc, List.cons_append]
      rw [scan_newLine, scan_quoted h.1, scan_of_ofChar? rfl, scan_space (by decide),
        scan_prettyChars value h.2.1 depth _ head?_comma, scan_of_ofChar? rfl, hlater,
        Option.map_map, Option.map_map, Option.map_map, Option.map_map]
      simp [memberTokens, Function.comp_def]

end

/-! ## Reading the tokens -/

/-- No value starts with the end of an array, so its first item is read like any other. -/
theorem foldlM_firstItem (item : Json) (items : List Json) (opened : List Open) :
    (itemTokens (item :: items) ++ [Token.closeArray]).foldlM Reading.step ⟨opened, .firstItem⟩
      = (itemTokens (item :: items) ++ [Token.closeArray]).foldlM Reading.step
        ⟨opened, .value⟩ := by
  have hfirst : ∃ t ts, itemTokens (item :: items) = t :: ts ∧ t ≠ .closeArray := by
    cases items <;> cases item <;> simp [itemTokens, tokens]
  obtain ⟨t, ts, hts, ht⟩ := hfirst
  rw [hts, List.cons_append, List.foldlM_cons, List.foldlM_cons]
  congr 1
  cases t <;> first | rfl | exact absurd rfl ht

mutual

/-- **The tokens of a value are read as the value**, within whatever is open. -/
theorem foldlM_tokens (j : Json) (opened : List Open) :
    (tokens j).foldlM Reading.step ⟨opened, .value⟩ = some (Reading.complete opened j) := by
  match j with
  | .null => rfl
  | .bool b => rfl
  | .number written => rfl
  | .string written => rfl
  | .array [] => rfl
  | .array (item :: items) =>
      have hitems := foldlM_itemTokens (item :: items) (List.cons_ne_nil _ _) [] opened
      rw [tokens, List.foldlM_cons]
      exact (foldlM_firstItem item items (.array [] :: opened)).trans hitems
  | .object [] => rfl
  | .object (m :: members) =>
      have hmembers := foldlM_memberTokens (m :: members) (List.cons_ne_nil _ _) [] opened
      rw [tokens, List.foldlM_cons]
      refine Eq.trans ?_ hmembers
      cases members <;> rfl

/-- The items of an array are read after those that are there. -/
theorem foldlM_itemTokens (items : List Json) (hne : items ≠ []) (acc : List Json)
    (opened : List Open) :
    (itemTokens items ++ [Token.closeArray]).foldlM Reading.step ⟨.array acc :: opened, .value⟩
      = some (Reading.complete opened (.array (acc.reverse ++ items))) := by
  match items, hne with
  | [item], _ =>
      have hitem := foldlM_tokens item (.array acc :: opened)
      simp [itemTokens, Reading.step, hitem, Reading.complete]
  | item :: item' :: items, _ =>
      have hlater := foldlM_itemTokens (item' :: items) (List.cons_ne_nil _ _) (item :: acc) opened
      have hitem := foldlM_tokens item (.array acc :: opened)
      simpa [itemTokens, Reading.step, hitem, Reading.complete] using hlater

/-- The members of an object are read after those that are there. -/
theorem foldlM_memberTokens (members : List (List Char × Json)) (hne : members ≠ [])
    (acc : List (List Char × Json)) (opened : List Open) :
    (memberTokens members ++ [Token.closeObject]).foldlM Reading.step ⟨opened, .name acc⟩
      = some (Reading.complete opened (.object (acc.reverse ++ members))) := by
  match members, hne with
  | [(name, value)], _ =>
      have hvalue := foldlM_tokens value (.object acc name :: opened)
      simp [memberTokens, Reading.step, hvalue, Reading.complete]
  | (name, value) :: m :: members, _ =>
      have hvalue := foldlM_tokens value (.object acc name :: opened)
      have hlater := foldlM_memberTokens (m :: members) (List.cons_ne_nil _ _)
        ((name, value) :: acc) opened
      simpa [memberTokens, Reading.step, hvalue, Reading.complete] using hlater

end

/-- **The text of a well-written value is read back as the value.** -/
theorem ofText?_pretty {j : Json} (h : WellWritten j) : ofText? j.pretty = some j := by
  have hscan := scan_prettyChars j h 0 [] (by simp)
  have hnil : scan [] = some [] := by rw [scan]
  rw [List.append_nil, hnil, Option.map_some, List.append_nil] at hscan
  rw [ofText?, pretty, String.toList_ofList, hscan, Option.bind_some, ofTokens?, foldlM_tokens]
  rfl

end Json

end GeometricAlgebra
