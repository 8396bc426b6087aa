import GeometricAlgebra.Json.Decode
import GeometricAlgebra.Proofs.Json.Pretty
import GeometricAlgebra.Proofs.Number

set_option autoImplicit false

/-! # Texts, numbers and records in JSON

What is written for a text, a count, an integer or a finite floating-point number is well written,
and it is read back as what it was written for. For texts both go character by character: an escape
is read as the character that it was written for, and the quote that ends the text is never taken
for one in it. A record is read back by the names of its fields. -/

namespace GeometricAlgebra

/-! ## Lists -/

section Lists

variable {β γ : Type}

/-- Items that are read back one by one are read back together. -/
theorem mapM_map_eq_pure {m : Type → Type} [Monad m] [LawfulMonad m] {write : β → γ}
    {read : γ → m β} {l : List β} (h : ∀ x ∈ l, read (write x) = pure x) :
    (l.map write).mapM read = pure l := by
  induction l with
  | nil => rfl
  | cons x l ih =>
      rw [List.map_cons, List.mapM_cons, h x List.mem_cons_self, pure_bind,
        ih fun y hy => h y (List.mem_cons_of_mem x hy), pure_bind]

/-- One item that is not read is enough for none to be read. -/
theorem mapM_eq_none_of_mem {read : β → Option γ} {l : List β} {x : β} (hx : x ∈ l)
    (h : read x = none) : l.mapM read = none := by
  induction l with
  | nil => cases hx
  | cons y l ih =>
      rw [List.mapM_cons]
      rcases List.mem_cons.mp hx with rfl | hx
      · rw [h]
        rfl
      · rw [ih hx]
        cases read y <;> rfl

end Lists

namespace Json

open Token

/-! ## Texts -/

/-- A character is written as it is, with a letter, or with four digits. -/
theorem escapeChar_cases (c : Char) :
    (escapeChar c = [c] ∧ c ≠ '"' ∧ c ≠ '\\' ∧ ¬ c.toNat < 0x20) ∨
    (∃ d, escapeChar c = ['\\', d] ∧ d ≠ 'u' ∧ simpleEscape? d = some c) ∨
    (escapeChar c = ['\\', 'u', '0', '0', hexDigit (c.toNat / 16), hexDigit (c.toNat % 16)] ∧
      c.toNat < 0x20) := by
  unfold escapeChar
  split
  · next h => exact Or.inr (Or.inl ⟨'"', rfl, by decide, by rw [h]; rfl⟩)
  split
  · next h => exact Or.inr (Or.inl ⟨'\\', rfl, by decide, by rw [h]; rfl⟩)
  split
  · next h => exact Or.inr (Or.inl ⟨'b', rfl, by decide, by rw [h]; rfl⟩)
  split
  · next h => exact Or.inr (Or.inl ⟨'t', rfl, by decide, by rw [h]; rfl⟩)
  split
  · next h => exact Or.inr (Or.inl ⟨'n', rfl, by decide, by rw [h]; rfl⟩)
  split
  · next h => exact Or.inr (Or.inl ⟨'f', rfl, by decide, by rw [h]; rfl⟩)
  split
  · next h => exact Or.inr (Or.inl ⟨'r', rfl, by decide, by rw [h]; rfl⟩)
  split
  · next h => exact Or.inr (Or.inr ⟨rfl, h⟩)
  · next hquote hslash _ _ _ _ _ hcontrol => exact Or.inl ⟨rfl, hquote, hslash, hcontrol⟩

/-- The four digits of a control character write it. -/
theorem codeUnit?_control {n : Nat} (hn : n < 0x20) :
    codeUnit? '0' '0' (hexDigit (n / 16)) (hexDigit (n % 16)) = some n := by
  revert n
  decide

theorem startsCodeUnit_control {n : Nat} (hn : n < 0x20) (rest : List Char) :
    startsCodeUnit ('0' :: '0' :: hexDigit (n / 16) :: hexDigit (n % 16) :: rest) = true := by
  have hdigits : ∀ n < 0x20, (isHex '0' && isHex '0' && isHex (hexDigit (n / 16))
    && isHex (hexDigit (n % 16))) = true := by decide
  exact hdigits n hn

/-- A character that needs no escape is part of the text. -/
theorem readString?_cons {c : Char} (hquote : c ≠ '"') (hslash : c ≠ '\\')
    (hcontrol : ¬ c.toNat < 0x20) (rest : List Char) :
    readString? (c :: rest)
      = (readString? rest).map fun (s : List Char × List Char) => (c :: s.1, s.2) := by
  rw [readString?.eq_def]
  simp only [if_neg hquote, if_neg hslash, if_neg hcontrol]

/-- Neither do the digits of an escape. -/
theorem readString?_hexDigit {n : Nat} (hn : n < 16) (rest : List Char) :
    readString? (hexDigit n :: rest)
      = (readString? rest).map fun (s : List Char × List Char) => (hexDigit n :: s.1, s.2) := by
  have hplain : ∀ n < 16, hexDigit n ≠ '"' ∧ hexDigit n ≠ '\\' ∧ ¬ (hexDigit n).toNat < 0x20 := by
    decide
  obtain ⟨hquote, hslash, hcontrol⟩ := hplain n hn
  exact readString?_cons hquote hslash hcontrol rest

theorem readString?_escapeChar (c : Char) (rest : List Char) :
    readString? (escapeChar c ++ rest)
      = (readString? rest).map fun (s : List Char × List Char) => (escapeChar c ++ s.1, s.2) := by
  rcases escapeChar_cases c with ⟨h, hquote, hslash, hcontrol⟩ | ⟨d, h, hd, hsimple⟩ | ⟨h, hcontrol⟩
  · rw [h]
    exact readString?_cons hquote hslash hcontrol rest
  · have hescape : isEscape d rest = true := by
      rw [isEscape, if_neg hd, hsimple]
      rfl
    simp [h, readString?, hescape]
  · have hescape : isEscape 'u'
        ('0' :: '0' :: hexDigit (c.toNat / 16) :: hexDigit (c.toNat % 16) :: rest) = true := by
      rw [isEscape, if_pos rfl, startsCodeUnit_control hcontrol]
    have hhigh := readString?_hexDigit (n := c.toNat / 16) (by omega)
    have hlow := readString?_hexDigit (n := c.toNat % 16) (by omega)
    have hzero := readString?_hexDigit (n := 0) (by omega)
    have hdigit : hexDigit 0 = '0' := rfl
    rw [hdigit] at hzero
    simp [h, readString?.eq_3, hescape, hhigh, hlow, hzero, Function.comp_def]

theorem unescape?_escapeChar (c : Char) (rest : List Char) :
    unescape? (escapeChar c ++ rest) = (unescape? rest).map (c :: ·) := by
  rcases escapeChar_cases c with ⟨h, hquote, hslash, hcontrol⟩ | ⟨d, h, hd, hsimple⟩ | ⟨h, hcontrol⟩
  · rw [h, List.cons_append, List.nil_append, unescape?]
    · cases unescape? rest <;> rfl
    · exact fun _ _ _ _ _ hc => absurd hc hslash
    · exact fun _ _ hc => absurd hc hslash
  · rw [h, List.cons_append, List.cons_append, List.nil_append, unescape?, hsimple]
    · cases unescape? rest <;> rfl
    · exact fun _ _ _ _ _ hc => absurd hc hd
  · have hsurrogate : isLowSurrogate c.toNat = false ∧ isHighSurrogate c.toNat = false := by
      simp [isLowSurrogate, isHighSurrogate]
      omega
    rw [h]
    simp only [List.cons_append, List.nil_append, unescape?, codeUnit?_control hcontrol]
    simp only [Option.bind_eq_bind, Option.bind_some, hsurrogate, Bool.false_eq_true, if_false,
      Char.ofNat_toNat]
    cases unescape? rest <;> rfl

/-- **A text is well written**: the quote after it is the first that ends it. -/
theorem isWritten_escape (text : List Char) : IsWritten (escape text) := by
  intro rest
  induction text with
  | nil =>
      rw [escape, List.flatMap_nil, List.nil_append, readString?.eq_def]
      rfl
  | cons c text ih =>
      rw [escape, List.flatMap_cons, List.append_assoc, readString?_escapeChar, ← escape, ih]
      rfl

/-- **A text is read back from what is written for it.** -/
theorem unescape?_escape (text : List Char) : unescape? (escape text) = some text := by
  induction text with
  | nil => rfl
  | cons c text ih =>
      rw [escape, List.flatMap_cons, unescape?_escapeChar, ← escape, ih]
      rfl

theorem toText?_text (s : String) : toText? (text s) = some s := by
  rw [text, toText?, unescape?_escape, Option.map_some, String.ofList_toList]

theorem nameText?_escape (s : String) : nameText? (escape s.toList) = some s := by
  rw [nameText?, unescape?_escape, Option.map_some, String.ofList_toList]

/-! ## Whole numbers -/

theorem ne_minus_of_mem_toDigits {n : Nat} {c : Char} (hc : c ∈ Nat.toDigits 10 n) : c ≠ '-' := by
  rintro rfl
  exact absurd (Decimal.isDigit_of_mem_toDigits hc) (by decide)

theorem isPadded_toDigits (n : Nat) : isPadded (Nat.toDigits 10 n) = false := by
  rcases Nat.eq_zero_or_pos n with rfl | hn
  · rfl
  · obtain ⟨c, cs, hcs, hc⟩ := Decimal.toDigits_eq_cons hn
    rw [hcs]
    unfold isPadded
    split
    · next heq => exact absurd (List.cons.inj heq).1 hc
    · rfl

theorem isUnsigned_toDigits (n : Nat) : isUnsigned (Nat.toDigits 10 n) = true := by
  have h : isUnsigned (Nat.toDigits 10 n ++ []) = true :=
    (Decimal.isWhole_toDigits n).isUnsigned_append (by simp) rfl
  rwa [List.append_nil] at h

theorem isNumber_of_isUnsigned {cs : List Char} (h : isUnsigned cs = true) :
    isNumber cs = true := by
  unfold isNumber
  split
  · next digits =>
      -- a sign is not the first digit of a whole part
      simp [isUnsigned, Decimal.isDigit, List.takeWhile] at h
  · exact h

theorem natOf?_toDigits {bound n : Nat} (hn : n < bound) :
    natOf? bound (Nat.toDigits 10 n) = some n := by
  have hne : (Nat.toDigits 10 n).isEmpty = false := by simp
  rw [natOf?, hne, isPadded_toDigits, Decimal.all_isDigit_toDigits, Decimal.valueOf_toDigits]
  exact if_pos hn

theorem wellWritten_nat (n : Nat) : (nat n).WellWritten :=
  isNumber_of_isUnsigned (isUnsigned_toDigits n)

/-- **A count is read back**, where it is below the bound. -/
theorem toNat?_nat {bound n : Nat} (hn : n < bound) : (nat n).toNat? bound = some n :=
  natOf?_toDigits hn

theorem wellWritten_int (z : Int) : (int z).WellWritten := by
  rw [int]
  split
  · exact isUnsigned_toDigits z.natAbs
  · exact isNumber_of_isUnsigned (isUnsigned_toDigits z.natAbs)

/-- **An integer is read back**, where it fits the word. -/
theorem toInt?_int {bits : Nat} {z : Int} (hlow : -(2 ^ (bits - 1)) ≤ z)
    (hhigh : z < 2 ^ (bits - 1)) : (int z).toInt? bits = some z := by
  have hpow : ((1 <<< (bits - 1) : Nat) : Int) = 2 ^ (bits - 1) := by
    rw [Nat.one_shiftLeft]
    push_cast
    rfl
  rw [int]
  split
  · next hneg =>
      have hbound : z.natAbs < 1 <<< (bits - 1) + 1 := by omega
      have hne : z.natAbs ≠ 0 := by omega
      rw [toInt?, intOf?, natOf?_toDigits hbound, Option.bind_some, if_neg hne]
      exact congrArg some (show -(z.natAbs : Int) = z by omega)
  · next hpos =>
      have hbound : z.natAbs < 1 <<< (bits - 1) := by omega
      have hnat := natOf?_toDigits hbound
      rw [toInt?]
      unfold intOf?
      split
      · next digits heq =>
          have hminus : '-' ∈ Nat.toDigits 10 z.natAbs := by
            rw [heq]
            exact List.mem_cons_self
          exact absurd rfl (ne_minus_of_mem_toDigits hminus)
      · rw [hnat, Option.map_some]
        exact congrArg some (show (z.natAbs : Int) = z by omega)

/-! ## Floating-point numbers -/

theorem wellWritten_float (x : Float) : (float x).WellWritten := by
  rw [float]
  split
  · next hx =>
      obtain ⟨negative, text, htext, hunsigned, -⟩ := Number.json_spec hx
      rw [WellWritten, htext]
      cases negative
      · exact isNumber_of_isUnsigned hunsigned
      · exact hunsigned
  · trivial

/-- **A finite number is read back**, bit by bit. What is no finite number is written as null, which
    is not read as a number. -/
theorem toFloat?_float (x : Float) : (float x).toFloat? = if x.isFinite then some x else none := by
  rw [float]
  split
  · next hx =>
      obtain ⟨-, -, -, -, hread⟩ := Number.json_spec hx
      rw [toFloat?, String.ofList_toList, hread, Option.filter_some, hx]
      rfl
  · rfl

/-! ## Arrays -/

theorem listOf?_map {β : Type} {write : β → Json} {read : Json → Option β} {l : List β}
    (h : ∀ x ∈ l, read (write x) = some x) : (array (l.map write)).listOf? read = some l :=
  mapM_map_eq_pure h

theorem wellWritten_array {β : Type} {write : β → Json} {l : List β}
    (h : ∀ x ∈ l, (write x).WellWritten) : (array (l.map write)).WellWritten := by
  rw [WellWritten, wellWrittenItems_iff]
  intro j hj
  obtain ⟨x, hx, rfl⟩ := List.mem_map.mp hj
  exact h x hx

/-! ## Records -/

section Records

variable {members : List (String × Json)}

/-- The members of a name are the one that is found first, if names are different. -/
theorem filter_eq_lookup (hnodup : (members.map Prod.fst).Nodup) (name : String) :
    members.filter (fun (m : String × Json) => m.1 == name)
      = (members.lookup name).toList.map fun value => (name, value) := by
  induction members with
  | nil => rfl
  | cons m members ih =>
      obtain ⟨name', value⟩ := m
      rw [List.map_cons, List.nodup_cons] at hnodup
      have hrest := ih hnodup.2
      by_cases hname : name' = name
      · subst hname
        have hnone : members.filter (fun (m : String × Json) => m.1 == name') = [] := by
          rw [List.filter_eq_nil_iff]
          intro m hm heq
          exact hnodup.1 (List.mem_map.mpr ⟨m, hm, beq_iff_eq.mp heq⟩)
        simp [hnone]
      · have hname' : (name == name') = false := beq_false_of_ne (Ne.symm hname)
        simp [List.lookup, hname, hname', hrest]

/-- **The fields of a record are read back** by their names. -/
theorem fields?_record (hnodup : (members.map Prod.fst).Nodup) (names : List String) :
    (record members).fields? names = some (names.map fun name => members.lookup name) := by
  have hnamed : (members.map fun (m : String × Json) => (escape m.1.toList, m.2)).mapM
      (fun (m : List Char × Json) => do return (← nameText? m.1, m.2)) = some members := by
    refine mapM_map_eq_pure fun m _ => ?_
    rw [nameText?_escape]
    rfl
  rw [record, fields?, fieldsOfMembers?, hnamed]
  show names.mapM _ = _
  induction names with
  | nil => rfl
  | cons name names ih =>
      rw [List.mapM_cons, filter_eq_lookup hnodup name, ih, List.map_cons]
      cases members.lookup name <;> rfl

theorem wellWritten_record (h : ∀ m ∈ members, m.2.WellWritten) : (record members).WellWritten := by
  rw [record, WellWritten, wellWrittenMembers_iff]
  intro w hw
  obtain ⟨m, hm, rfl⟩ := List.mem_map.mp hw
  exact ⟨isWritten_escape _, h m hm⟩

end Records

end Json

end GeometricAlgebra
