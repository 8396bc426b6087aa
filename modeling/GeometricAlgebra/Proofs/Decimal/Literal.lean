import GeometricAlgebra.Json.Token
import GeometricAlgebra.Proofs.Decimal.Digits
import GeometricAlgebra.Proofs.Decimal.Shortest

set_option autoImplicit false

/-! # Decimals are read back from their texts

A decimal is written in full or with an exponent. Either text is digits, a fraction after a point,
and an exponent, of which the last two may be missing; it is a number by the strictest grammar, that
of JSON, and it is read as a decimal of the same value. What is written in full is plain: it has no
exponent (`isPlain_plain`). -/

namespace GeometricAlgebra

namespace Decimal

open Json.Token

/-- The text is a number without a sign, and is read as one with the given value. -/
def Writes (text : List Char) (v : ℚ) : Prop :=
  isUnsigned text = true ∧ ∃ d, readUnsigned? text = some d ∧ d.value = v

/-! ## Literals -/

section Literals

variable {whole fraction rest : List Char} {e : Int}

/-- The whole part of a number has digits, and no zero in front of others. -/
def IsWhole (whole : List Char) : Prop :=
  whole ≠ [] ∧ (∀ c ∈ whole, isDigit c = true) ∧ (whole = ['0'] ∨ whole.head? ≠ some '0')

/-- The text after the digits of a number is an exponent with its mark, or nothing. -/
def IsExponent (rest : List Char) (e : Int) : Prop :=
  rest = [] ∧ e = 0 ∨
    ∃ digits, rest = 'e' :: digits ∧ readExponent? digits = some e ∧ isExponent rest = true

theorem IsExponent.isExponent (h : IsExponent rest e) : Json.Token.isExponent rest = true := by
  rcases h with ⟨rfl, -⟩ | ⟨_, -, -, h⟩
  · rfl
  · exact h

theorem IsExponent.head? (h : IsExponent rest e) : ∀ c ∈ rest.head?, isDigit c = false := by
  rcases h with ⟨rfl, -⟩ | ⟨_, rfl, -, -⟩
  · simp
  · simp [isDigit]

theorem IsWhole.isUnsigned_append (hwhole : IsWhole whole) {tail : List Char}
    (hhead : ∀ c ∈ tail.head?, isDigit c = false) (htail : isTail tail = true) :
    isUnsigned (whole ++ tail) = true := by
  obtain ⟨hne, hdigits, hzeros⟩ := hwhole
  rw [isUnsigned, takeWhile_append_of_head? hdigits hhead, dropWhile_append_of_head? hdigits hhead,
    htail, Bool.and_true]
  rcases hzeros with rfl | hhead
  · rfl
  · cases whole with
    | nil => exact absurd rfl hne
    | cons c cs => simp_all

theorem isWhole_toDigits (n : Nat) : IsWhole (Nat.toDigits 10 n) := by
  refine ⟨by simp, fun c => isDigit_of_mem_toDigits, ?_⟩
  rcases Nat.eq_zero_or_pos n with rfl | hn
  · exact Or.inl rfl
  · obtain ⟨c, cs, hcs, hc⟩ := toDigits_eq_cons hn
    right
    simpa [hcs] using hc

/-- Digits with an exponent write a number. -/
theorem writes_whole (hwhole : IsWhole whole) (hrest : IsExponent rest e) :
    Writes (whole ++ rest) (valueOf whole * 10 ^ e) := by
  have hread : readUnsigned? (whole ++ rest) = some ⟨valueOf whole, e⟩ := by
    obtain ⟨hne, hdigits, -⟩ := hwhole
    rw [readUnsigned?, takeWhile_append_of_head? hdigits hrest.head?,
      dropWhile_append_of_head? hdigits hrest.head?]
    rcases hrest with ⟨rfl, rfl⟩ | ⟨digits, rfl, hdigits, -⟩
    · simp [hne]
    · simp [hne, hdigits]
  refine ⟨hwhole.isUnsigned_append hrest.head? ?_, _, hread, rfl⟩
  unfold isTail
  split
  · rcases hrest with ⟨h, -⟩ | ⟨_, h, -⟩ <;> cases h
  · exact hrest.isExponent

/-- Digits with a fraction and an exponent write a number. -/
theorem writes_point (hwhole : IsWhole whole) (hne : fraction ≠ [])
    (hfraction : ∀ c ∈ fraction, isDigit c = true) (hrest : IsExponent rest e) :
    Writes (whole ++ '.' :: (fraction ++ rest))
      (valueOf (whole ++ fraction) * 10 ^ (e - fraction.length)) := by
  have hpoint : ∀ c ∈ ('.' :: (fraction ++ rest)).head?, isDigit c = false := by simp [isDigit]
  have hread : readUnsigned? (whole ++ '.' :: (fraction ++ rest))
      = some ⟨valueOf (whole ++ fraction), e - fraction.length⟩ := by
    obtain ⟨hne, hdigits, -⟩ := hwhole
    simp only [readUnsigned?, takeWhile_append_of_head? hdigits hpoint,
      dropWhile_append_of_head? hdigits hpoint, takeWhile_append_of_head? hfraction hrest.head?,
      dropWhile_append_of_head? hfraction hrest.head?]
    rcases hrest with ⟨rfl, rfl⟩ | ⟨digits, rfl, hdigits, -⟩
    · simp [hne]
    · simp [hne, hdigits]
  refine ⟨hwhole.isUnsigned_append hpoint ?_, _, hread, rfl⟩
  rw [isTail, takeWhile_append_of_head? hfraction hrest.head?,
    dropWhile_append_of_head? hfraction hrest.head?, hrest.isExponent]
  simp [hne]

end Literals

/-! ## Written in full -/

section Plain

variable {d : Decimal}

theorem isDigit_of_mem_chars {c : Char} (hc : c ∈ d.chars) : isDigit c = true :=
  isDigit_of_mem_toDigits hc

theorem isDigit_of_mem_zeros {n : Nat} {c : Char} (hc : c ∈ List.replicate n '0') :
    isDigit c = true := by
  rw [List.eq_of_mem_replicate hc]
  rfl

/-- A decimal without a fraction is its digits and zeros. -/
theorem toList_plain_of_nonneg (h : 0 ≤ d.exponent) :
    d.plain.toList = d.chars ++ List.replicate d.exponent.toNat '0' := by
  have hplaces : (-d.exponent).toNat = 0 := by omega
  have hlen : 0 < d.chars.length := Nat.length_toDigits_pos
  have hnone : 0 + 1 - (d.chars ++ List.replicate d.exponent.toNat '0').length = 0 := by
    rw [List.length_append]
    omega
  simp only [plain, hplaces, hnone, List.replicate_zero, List.nil_append, Nat.sub_zero,
    List.take_length, List.drop_length, List.isEmpty_nil, if_true, String.toList_ofList]

/-- The digits after as many zeros that there is one in front of the given number of places. -/
def padded (d : Decimal) (places : Nat) : List Char :=
  List.replicate (places + 1 - d.chars.length) '0' ++ d.chars

theorem length_padded (d : Decimal) (places : Nat) :
    (d.padded places).length = max (places + 1) d.chars.length := by
  rw [padded, List.length_append, List.length_replicate]
  omega

theorem isDigit_of_mem_padded {places : Nat} {c : Char} (hc : c ∈ d.padded places) :
    isDigit c = true := by
  rcases List.mem_append.mp hc with hc | hc
  · exact isDigit_of_mem_zeros hc
  · exact isDigit_of_mem_chars hc

theorem valueOf_padded (d : Decimal) (places : Nat) : valueOf (d.padded places) = d.digits := by
  rw [padded, valueOf_append, valueOf_replicate_zero, zero_mul, zero_add]
  exact valueOf_toDigits d.digits

/-- What is in front of the places starts with the first digit, or is the one zero. -/
theorem isWhole_take_padded (hd : 0 < d.digits) (places : Nat) :
    IsWhole ((d.padded places).take ((d.padded places).length - places)) := by
  have hlen := length_padded d places
  refine ⟨?_, fun c hc => isDigit_of_mem_padded (List.mem_of_mem_take hc), ?_⟩
  · rw [Ne, ← List.length_eq_zero_iff, List.length_take]
    omega
  rcases Nat.lt_or_ge places d.chars.length with hlong | hshort
  · right
    obtain ⟨c, cs, hchars, hc⟩ := toDigits_eq_cons hd
    have hzeros : places + 1 - d.chars.length = 0 := by omega
    rw [List.head?_take, if_neg (by omega), padded, hzeros, chars, hchars]
    simpa using hc
  · left
    have hone : (d.padded places).length - places = 1 := by omega
    obtain ⟨n, hn⟩ : ∃ n, places + 1 - d.chars.length = n + 1 := ⟨places - d.chars.length, by omega⟩
    rw [hone, padded, hn]
    rfl

/-- A decimal with a fraction is its digits with the point in front of the places, and zeros where
    there are not enough digits. -/
theorem toList_plain_of_neg (h : d.exponent < 0) :
    let places := (-d.exponent).toNat
    d.plain.toList = (d.padded places).take ((d.padded places).length - places)
      ++ '.' :: (d.padded places).drop ((d.padded places).length - places) := by
  intro places
  have hzero : d.exponent.toNat = 0 := by omega
  have hnonempty :
      ¬ ((d.padded places).drop ((d.padded places).length - places)).isEmpty = true := by
    have := length_padded d places
    rw [List.isEmpty_iff, ← List.length_eq_zero_iff, List.length_drop]
    omega
  simp only [plain, hzero, List.replicate_zero, List.append_nil, String.toList_ofList]
  exact if_neg hnonempty

theorem writes_plain_of_neg (hd : 0 < d.digits) (h : d.exponent < 0) :
    Writes d.plain.toList d.value := by
  let places := (-d.exponent).toNat
  have hlen := length_padded d places
  have hlength : ((d.padded places).drop ((d.padded places).length - places)).length = places := by
    rw [List.length_drop]
    omega
  have hne : (d.padded places).drop ((d.padded places).length - places) ≠ [] := by
    rw [Ne, ← List.length_eq_zero_iff, hlength]
    omega
  have hwrites := writes_point (isWhole_take_padded hd places) hne
    (fun c hc => isDigit_of_mem_padded (List.mem_of_mem_drop hc)) (Or.inl ⟨rfl, rfl⟩)
  have hexp : (0 : Int) - (places : Nat) = d.exponent := by omega
  rw [List.append_nil, List.take_append_drop, valueOf_padded, hlength, hexp] at hwrites
  rw [toList_plain_of_neg h]
  exact hwrites

/-- Digits and zeros after them are a whole number. -/
theorem isWhole_append_zeros (hd : 0 < d.digits) (n : Nat) :
    IsWhole (d.chars ++ List.replicate n '0') := by
  obtain ⟨c, cs, hchars, hc⟩ := toDigits_eq_cons hd
  refine ⟨by simp [chars], fun x hx => ?_, Or.inr (by simp [chars, hchars, hc])⟩
  rcases List.mem_append.mp hx with hx | hx
  · exact isDigit_of_mem_chars hx
  · exact isDigit_of_mem_zeros hx

theorem valueOf_append_zeros (d : Decimal) (n : Nat) :
    valueOf (d.chars ++ List.replicate n '0') = d.digits * 10 ^ n := by
  rw [valueOf_append, valueOf_replicate_zero, List.length_replicate, add_zero]
  exact congrArg (· * _) (valueOf_toDigits d.digits)

theorem writes_plain_of_nonneg (hd : 0 < d.digits) (h : 0 ≤ d.exponent) :
    Writes d.plain.toList d.value := by
  have hwrites := writes_whole (isWhole_append_zeros hd d.exponent.toNat) (Or.inl ⟨rfl, rfl⟩)
  have hvalue : d.value = (d.digits * 10 ^ d.exponent.toNat : Nat) * (10 : ℚ) ^ (0 : Int) := by
    have hexp : d.exponent = (d.exponent.toNat : Int) := by omega
    rw [value, zpow_zero, mul_one, Nat.cast_mul, Nat.cast_pow, ← zpow_natCast, ← hexp]
    rfl
  rwa [List.append_nil, valueOf_append_zeros, ← hvalue, ← toList_plain_of_nonneg h] at hwrites

/-- **A decimal that is written in full is read back**, with its value. -/
theorem writes_plain (hd : 0 < d.digits) : Writes d.plain.toList d.value := by
  rcases lt_or_ge d.exponent 0 with h | h
  · exact writes_plain_of_neg hd h
  · exact writes_plain_of_nonneg hd h

theorem writes_plain_point_of_nonneg (hd : 0 < d.digits) (h : 0 ≤ d.exponent) :
    Writes (d.plain ++ ".0").toList d.value := by
  have hzero : ∀ x ∈ ['0'], isDigit x = true := by simp [isDigit]
  have hwrites := writes_point (isWhole_append_zeros hd d.exponent.toNat) (List.cons_ne_nil '0' [])
    hzero (Or.inl ⟨rfl, rfl⟩)
  have hdigits : valueOf (d.chars ++ List.replicate d.exponent.toNat '0' ++ ['0'])
      = d.digits * 10 ^ (d.exponent.toNat + 1) := by
    rw [List.append_assoc, ← List.replicate_succ', valueOf_append_zeros]
  have hpower : (10 : ℚ) ^ d.exponent
      = 10 ^ ((d.exponent.toNat + 1 : Nat) : Int) * 10 ^ (0 - ((1 : Nat) : Int)) := by
    rw [← zpow_add₀ (by norm_num)]
    congr 1
    omega
  have hvalue : d.value = (d.digits * 10 ^ (d.exponent.toNat + 1) : Nat)
      * 10 ^ (0 - ((1 : Nat) : Int)) := by
    rw [value, hpower, zpow_natCast]
    push_cast
    ring
  rw [hdigits, List.append_nil] at hwrites
  rw [String.toList_append, toList_plain_of_nonneg h, hvalue]
  exact hwrites

/-- **A decimal that is written with a fraction is read back**, with its value. -/
theorem writes_plainWithFraction (hd : 0 < d.digits) :
    Writes d.plainWithFraction.toList d.value := by
  rw [plainWithFraction]
  split
  · next h => exact writes_plain_of_neg hd h
  · next h => exact writes_plain_point_of_nonneg hd (not_lt.mp h)

/-! ## Plain decimals -/

/-- The minus in front of what is negative. -/
def minus (negative : Bool) : List Char := if negative then ['-'] else []

/-- The text is digits, with a fraction after a point and a minus in front where there are such. -/
inductive IsPlain : List Char → Prop where
  | intro {whole fraction : List Char} (negative : Bool) (hne : whole ≠ [])
      (hwhole : ∀ c ∈ whole, isDigit c = true)
      (hfraction : fraction = [] ∨ ∃ digits, digits ≠ [] ∧ (∀ c ∈ digits, isDigit c = true) ∧
        fraction = '.' :: digits) :
      IsPlain (minus negative ++ (whole ++ fraction))

theorem IsPlain.exists_eq_minus {text : List Char} (h : IsPlain text) :
    ∃ negative cs, text = minus negative ++ cs ∧ cs ≠ [] ∧
      ∀ c ∈ cs, isDigit c = true ∨ c = '.' := by
  obtain ⟨negative, hne, hwhole, hfraction⟩ := h
  rename_i whole fraction
  refine ⟨negative, _, rfl, List.append_ne_nil_of_left_ne_nil hne fraction, fun c hc => ?_⟩
  rcases List.mem_append.mp hc with hc | hc
  · exact Or.inl (hwhole c hc)
  · rcases hfraction with rfl | ⟨digits, -, hdigits, rfl⟩
    · cases hc
    · exact (List.mem_cons.mp hc).elim Or.inr fun hc => Or.inl (hdigits c hc)

/-- A plain decimal has digits, a point and a minus in it and nothing else. -/
theorem IsPlain.not_mem {text : List Char} (h : IsPlain text) {c : Char} (hminus : c ≠ '-')
    (hpoint : c ≠ '.') (hdigit : isDigit c = false) : c ∉ text := by
  obtain ⟨negative, cs, rfl, -, hcs⟩ := h.exists_eq_minus
  intro hc
  rcases List.mem_append.mp hc with hc | hc
  · cases negative
    · cases hc
    · exact hminus (List.mem_singleton.mp hc)
  · rcases hcs c hc with hc | hc
    · rw [hdigit] at hc
      cases hc
    · exact hpoint hc

theorem IsWhole.isPlain {whole : List Char} (hwhole : IsWhole whole) (negative : Bool) :
    IsPlain (minus negative ++ whole) := by
  have h := IsPlain.intro negative hwhole.1 hwhole.2.1 (Or.inl rfl)
  rwa [List.append_nil] at h

/-- A decimal in full is plain. -/
theorem isPlain_plain (hd : 0 < d.digits) (negative : Bool) :
    IsPlain (minus negative ++ d.plain.toList) := by
  rcases lt_or_ge d.exponent 0 with h | h
  · have hlen := length_padded d (-d.exponent).toNat
    rw [toList_plain_of_neg h]
    obtain ⟨hne, hdigits, -⟩ := isWhole_take_padded hd (-d.exponent).toNat
    refine .intro negative hne hdigits (Or.inr ⟨_, ?_, fun c hc => ?_, rfl⟩)
    · rw [Ne, ← List.length_eq_zero_iff, List.length_drop]
      omega
    · exact isDigit_of_mem_padded (List.mem_of_mem_drop hc)
  · rw [toList_plain_of_nonneg h]
    exact (isWhole_append_zeros hd _).isPlain negative

theorem chars_plain (hd : 0 < d.digits) :
    d.plain.toList ≠ [] ∧ ∀ c ∈ d.plain.toList, isDigit c = true ∨ c = '.' := by
  obtain ⟨negative, cs, heq, hne, hcs⟩ := (isPlain_plain hd true).exists_eq_minus
  have hminus : '-' :: d.plain.toList = minus negative ++ cs := heq
  cases negative with
  | false =>
      have hmem : '-' ∈ cs := by
        rw [← List.nil_append cs]
        exact hminus ▸ List.mem_cons_self
      exact absurd (hcs '-' hmem) (by decide)
  | true => exact (List.cons.inj hminus).2 ▸ ⟨hne, hcs⟩

end Plain

/-! ## Written with an exponent -/

/-- A signed exponent is read back. -/
theorem isExponent_signed (e : Int) :
    IsExponent ((if e < 0 then "e-" else "e+") ++ toString e.natAbs).toList e := by
  have hdigits : (toString e.natAbs).toList = Nat.toDigits 10 e.natAbs := by
    rw [Nat.toString_eq_repr, Nat.toList_repr]
  have hall : (Nat.toDigits 10 e.natAbs).all isDigit = true := all_isDigit_toDigits _
  have hne : (Nat.toDigits 10 e.natAbs).isEmpty = false := by simp
  rw [String.toList_append, hdigits]
  right
  split
  · next h =>
      refine ⟨'-' :: Nat.toDigits 10 e.natAbs, rfl, ?_, ?_⟩
      · simp only [readExponent?, splitSign, hne, hall, valueOf_toDigits]
        exact congrArg some (show -(e.natAbs : Int) = e by omega)
      · simp [isExponent, isDigits, hne, hall]
  · next h =>
      refine ⟨'+' :: Nat.toDigits 10 e.natAbs, rfl, ?_, ?_⟩
      · simp only [readExponent?, splitSign, hne, hall, valueOf_toDigits]
        exact congrArg some (show (e.natAbs : Int) = e by omega)
      · simp [isExponent, isDigits, hne, hall]

/-- **A decimal that is written with an exponent is read back**, with its value. -/
theorem writes_scientific {d : Decimal} (hd : 0 < d.digits) :
    Writes d.scientific.toList d.value := by
  obtain ⟨c, cs, hchars, hc⟩ := toDigits_eq_cons hd
  have hdigits : ∀ x ∈ c :: cs, isDigit x = true := fun x hx =>
    isDigit_of_mem_toDigits (n := d.digits) (hchars ▸ hx)
  have hwhole : IsWhole [c] :=
    ⟨by simp, fun x hx => hdigits x (by simp_all), Or.inr (by simpa using hc)⟩
  have hvalue : valueOf (c :: cs) = d.digits := by rw [← hchars, valueOf_toDigits]
  have hlead : d.leadingExponent = cs.length + d.exponent := by
    simp [leadingExponent, chars, hchars]
  have hexponent := isExponent_signed d.leadingExponent
  have htext : d.scientific.toList = c :: ((if cs.isEmpty then [] else ['.']) ++ cs
      ++ ((if d.leadingExponent < 0 then "e-" else "e+")
        ++ toString d.leadingExponent.natAbs).toList) := by
    simp [scientific, chars, hchars]
  rw [htext, value, ← hvalue]
  cases cs with
  | nil =>
      have hexp : d.exponent = d.leadingExponent := by simp [hlead]
      rw [hexp]
      exact writes_whole hwhole hexponent
  | cons x xs =>
      have hexp : d.exponent = d.leadingExponent - ((x :: xs).length : Nat) := by omega
      rw [hexp]
      exact writes_point hwhole (List.cons_ne_nil x xs)
        (fun y hy => hdigits y (List.mem_cons_of_mem c hy)) hexponent

end Decimal

end GeometricAlgebra
