import GeometricAlgebra.Json.Basic

set_option autoImplicit false

/-! # JSON tokens

The first step of reading: a text is cut into brackets, separators, words, numbers and strings, and
white space is dropped. Numbers and strings are checked to be well written, which for a string says
nothing of whether its escapes make up a text. -/

namespace GeometricAlgebra

namespace Json

/-- A piece of a JSON text. -/
inductive Token where
  | openArray
  | closeArray
  | openObject
  | closeObject
  | comma
  | colon
  | null
  | bool (value : Bool)
  | number (written : List Char)
  | string (written : List Char)
  deriving DecidableEq, Repr

namespace Token

def isSpace (c : Char) : Bool := c == ' ' || c == '\n' || c == '\t' || c == '\r'

/-! ## Numbers -/

def isNumberChar (c : Char) : Bool :=
  Decimal.isDigit c || c == '-' || c == '+' || c == '.' || c == 'e' || c == 'E'

/-- Whether there are digits and nothing else. -/
def isDigits (cs : List Char) : Bool := !cs.isEmpty && cs.all Decimal.isDigit

/-- Whether the text is an exponent with its mark, or nothing. -/
def isExponent : List Char → Bool
  | [] => true
  | c :: cs =>
    (c == 'e' || c == 'E') &&
      match cs with
      | '-' :: digits => isDigits digits
      | '+' :: digits => isDigits digits
      | digits => isDigits digits

/-- Whether the text is what may follow the whole part of a number: a fraction and an exponent. -/
def isTail : List Char → Bool
  | '.' :: cs =>
    !(cs.takeWhile Decimal.isDigit).isEmpty && isExponent (cs.dropWhile Decimal.isDigit)
  | cs => isExponent cs

/-- Whether the text is a number without a sign. The whole part has no zeros in front. -/
def isUnsigned (cs : List Char) : Bool :=
  let whole := cs.takeWhile Decimal.isDigit
  (whole == ['0'] || (!whole.isEmpty && whole.head? != some '0'))
    && isTail (cs.dropWhile Decimal.isDigit)

/-- Whether the text is a number. -/
def isNumber : List Char → Bool
  | '-' :: cs => isUnsigned cs
  | cs => isUnsigned cs

/-! ## Strings -/

def isHex (c : Char) : Bool := (Text.hexValue? c).isSome

/-- Whether a text starts with the four digits of a code unit. -/
def startsCodeUnit : List Char → Bool
  | a :: b :: c :: d :: _ => isHex a && isHex b && isHex c && isHex d
  | _ => false

/-- Whether a character may follow a backslash, in front of the given text. -/
def isEscape (c : Char) (rest : List Char) : Bool :=
  if c = 'u' then startsCodeUnit rest else (simpleEscape? c).isSome

/-- Splits a text after an opening quote into what is between the quotes and what follows. -/
def readString? : List Char → Option (List Char × List Char)
  | [] => none
  | c :: cs =>
    if c = '"' then some ([], cs)
    else if c = '\\' then
      match cs with
      | [] => none
      | d :: rest =>
        if isEscape d rest then
          (readString? rest).map fun (s : List Char × List Char) => (c :: d :: s.1, s.2)
        else none
    else if c.toNat < 0x20 then none
    else (readString? cs).map fun (s : List Char × List Char) => (c :: s.1, s.2)

theorem readString?_length {cs written rest : List Char}
    (h : readString? cs = some (written, rest)) : rest.length < cs.length := by
  fun_induction readString? cs generalizing written rest with
  | case1 => simp at h
  | case2 cs =>
    simp only [Option.some.injEq, Prod.mk.injEq] at h
    simp [← h.2]
  | case3 => simp at h
  | case4 c hc d cs ih =>
    obtain ⟨s, hs, hr⟩ := Option.map_eq_some_iff.1 h
    have := ih hs
    simp only [Prod.mk.injEq] at hr
    rw [← hr.2]
    simp only [List.length_cons]
    omega
  | case5 => simp at h
  | case6 => simp at h
  | case7 c cs _ _ _ ih =>
    obtain ⟨s, hs, hr⟩ := Option.map_eq_some_iff.1 h
    have := ih hs
    simp only [Prod.mk.injEq] at hr
    rw [← hr.2]
    simp only [List.length_cons]
    omega

/-! ## Tokens -/

/-- The text after a word, if it starts with it. -/
def afterWord? : (word : List Char) → List Char → Option (List Char)
  | [], cs => some cs
  | _ :: _, [] => none
  | c :: word, d :: cs => if c = d then afterWord? word cs else none

theorem afterWord?_length {word cs rest : List Char} (h : afterWord? word cs = some rest) :
    rest.length ≤ cs.length := by
  induction word generalizing cs with
  | nil =>
    simp only [afterWord?, Option.some.injEq] at h
    simp [h]
  | cons c word ih =>
    cases cs with
    | nil => simp [afterWord?] at h
    | cons d cs =>
      rw [afterWord?] at h
      split at h
      · have := ih h
        simp only [List.length_cons]
        omega
      · simp at h

/-- The tokens of a single character. -/
def ofChar? (c : Char) : Option Token :=
  if c = '[' then some openArray
  else if c = ']' then some closeArray
  else if c = '\x7b' then some openObject
  else if c = '\x7d' then some closeObject
  else if c = ',' then some comma
  else if c = ':' then some colon
  else none

/-- The words, each with its first letter apart. -/
def words : List (Char × List Char × Token) :=
  [('n', "ull".toList, null), ('t', "rue".toList, bool true), ('f', "alse".toList, bool false)]

/-- The word at the start of a text that starts with `c`, and the text after it. -/
def word? (c : Char) (cs : List Char) : Option (Token × List Char) :=
  match words.find? (fun (w : Char × List Char × Token) => w.1 == c) with
  | none => none
  | some (_, word, t) => (afterWord? word cs).map fun rest => (t, rest)

/-- The number at the start of a text that starts with `c`, and the text after it. -/
def number? (c : Char) (cs : List Char) : Option (Token × List Char) :=
  let written := c :: cs.takeWhile isNumberChar
  if isNumber written then some (number written, cs.dropWhile isNumberChar) else none

/-- The token at the start of a text that starts with `c`, and the text after it. -/
def next? (c : Char) (cs : List Char) : Option (Token × List Char) :=
  match ofChar? c with
  | some t => some (t, cs)
  | none =>
    if c = '"' then
      (readString? cs).map fun (s : List Char × List Char) => (string s.1, s.2)
    else (word? c cs).or (number? c cs)

theorem word?_length {c : Char} {cs rest : List Char} {t : Token}
    (h : word? c cs = some (t, rest)) : rest.length ≤ cs.length := by
  unfold word? at h
  split at h
  · simp at h
  · obtain ⟨r, hr, hs⟩ := Option.map_eq_some_iff.1 h
    simp only [Prod.mk.injEq] at hs
    exact hs.2 ▸ afterWord?_length hr

theorem number?_length {c : Char} {cs rest : List Char} {t : Token}
    (h : number? c cs = some (t, rest)) : rest.length ≤ cs.length := by
  simp only [number?] at h
  split at h
  · simp only [Option.some.injEq, Prod.mk.injEq] at h
    exact h.2 ▸ (List.dropWhile_sublist _).length_le
  · simp at h

theorem next?_length {c : Char} {cs rest : List Char} {t : Token}
    (h : next? c cs = some (t, rest)) : rest.length ≤ cs.length := by
  unfold next? at h
  split at h
  · simp only [Option.some.injEq, Prod.mk.injEq] at h
    simp [← h.2]
  · split at h
    · obtain ⟨s, hs, hr⟩ := Option.map_eq_some_iff.1 h
      simp only [Prod.mk.injEq] at hr
      exact hr.2 ▸ Nat.le_of_lt (readString?_length hs)
    · rcases Option.or_eq_some_iff.1 h with h | ⟨_, h⟩
      · exact word?_length h
      · exact number?_length h

/-- The tokens of a text. -/
def scan : List Char → Option (List Token)
  | [] => some []
  | c :: cs =>
    if isSpace c then scan cs
    else
      match _ : next? c cs with
      | none => none
      | some (t, rest) => (scan rest).map (t :: ·)
termination_by cs => cs.length
decreasing_by
  · simp
  · exact Nat.lt_succ_of_le (next?_length (by assumption))

end Token

end Json

end GeometricAlgebra
