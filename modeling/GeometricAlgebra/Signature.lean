import GeometricAlgebra.Blade.Basic

set_option autoImplicit false

/-! # Signatures

A signature says what each basis vector squares to: `1`, `-1` or `0`. It is held as the dimension
and two blades, the vectors that square to `-1` and those that square to `0`; every other vector
squares to `1`. The invariants are part of the type: at most `maxDimension` vectors, both blades
within the dimension, and no vector in both. -/

namespace GeometricAlgebra

/-- What a basis vector squares to. -/
inductive Square where
  | positive
  | negative
  | zero
  deriving DecidableEq, Repr, Inhabited

namespace Square

/-- The square as a number. -/
def sign : Square → Int
  | positive => 1
  | negative => -1
  | zero => 0

/-- The square with the given number. -/
def ofSign (s : Int) : Except Error Square :=
  if s = 1 then .ok positive
  else if s = -1 then .ok negative
  else if s = 0 then .ok zero
  else .error (.badSquare s)

/-- The name of a square in texts. -/
def name : Square → String
  | positive => "positive"
  | negative => "negative"
  | zero => "zero"

/-- The square of the given name. -/
def ofName? (s : String) : Option Square :=
  [positive, negative, zero].find? (fun q => q.name == s)

/-- The blade of the vectors, from the first on, whose square is `q`. -/
def mask (q : Square) : List Square → Nat
  | [] => 0
  | s :: rest => (if s = q then 1 else 0) + 2 * mask q rest

theorem testBit_mask (q : Square) (squares : List Square) (i : Nat) :
    (mask q squares).testBit i = decide (squares[i]? = some q) := by
  induction squares generalizing i with
  | nil => simp [mask]
  | cons s rest ih =>
    cases i with
    | zero =>
      by_cases h : s = q <;> simp [mask, h, Nat.testBit_zero]
    | succ i =>
      have : (mask q (s :: rest)) / 2 = mask q rest := by
        by_cases h : s = q <;> simp only [mask, h, if_true, if_false] <;> omega
      rw [Nat.testBit_succ, this, ih, List.getElem?_cons_succ]

theorem mask_lt (q : Square) (squares : List Square) :
    mask q squares < 1 <<< squares.length := by
  rw [Nat.one_shiftLeft]
  induction squares with
  | nil => simp [mask]
  | cons s rest ih =>
    rw [List.length_cons, Nat.pow_succ]
    by_cases h : s = q <;> simp only [mask, h, if_true, if_false] <;> omega

theorem mask_disjoint {p q : Square} (hpq : p ≠ q) (squares : List Square) :
    mask p squares &&& mask q squares = 0 := by
  apply Nat.eq_of_testBit_eq
  intro i
  rw [Nat.testBit_and, testBit_mask, testBit_mask, Nat.zero_testBit]
  by_cases h : squares[i]? = some p
  · simp [h, hpq]
  · simp [h]

end Square

/-- What each basis vector of an algebra squares to. -/
structure Signature where
  /-- The number of basis vectors. -/
  dimension : Nat
  /-- The vectors that square to `-1`. -/
  negative : Nat
  /-- The vectors that square to `0`. -/
  null : Nat
  dimension_le : dimension ≤ maxDimension
  negative_lt : negative < 1 <<< dimension
  null_lt : null < 1 <<< dimension
  disjoint : negative &&& null = 0
  deriving DecidableEq

namespace Signature

open Blade

/-! ## Building signatures -/

/-- The signature with the given squares, in the order of the basis vectors. -/
def ofSquares (squares : List Square) : Except Error Signature :=
  if h : squares.length ≤ maxDimension then
    .ok {
      dimension := squares.length
      negative := Square.mask .negative squares
      null := Square.mask .zero squares
      dimension_le := h
      negative_lt := Square.mask_lt _ _
      null_lt := Square.mask_lt _ _
      disjoint := Square.mask_disjoint (by decide) _ }
  else .error (.dimensionTooLarge squares.length)

/-- The signature with the given squares, as numbers. A number that is no square is reported before
    a list that is too long. -/
def ofSigns (signs : List Int) : Except Error Signature := do
  ofSquares (← signs.mapM Square.ofSign)

theorem firstVectors_shift_lt {q s n : Nat} (hqs : q + s ≤ n) :
    (1 <<< q - 1) <<< s < 1 <<< n := by
  rw [Nat.one_shiftLeft, Nat.one_shiftLeft, Nat.shiftLeft_eq]
  calc (2 ^ q - 1) * 2 ^ s < 2 ^ q * 2 ^ s :=
        Nat.mul_lt_mul_of_pos_right
          (Nat.sub_lt (Nat.two_pow_pos q) (by decide)) (Nat.two_pow_pos s)
    _ = 2 ^ (q + s) := (Nat.pow_add 2 q s).symm
    _ ≤ 2 ^ n := Nat.pow_le_pow_right (by decide) hqs

theorem firstVectors_shift_disjoint (p q r : Nat) :
    (1 <<< q - 1) <<< p &&& (1 <<< r - 1) <<< (p + q) = 0 := by
  apply Nat.eq_of_testBit_eq
  intro i
  rw [Nat.testBit_and, Nat.testBit_shiftLeft, Nat.testBit_shiftLeft, Nat.one_shiftLeft,
    Nat.one_shiftLeft, Nat.testBit_two_pow_sub_one, Nat.testBit_two_pow_sub_one, Nat.zero_testBit]
  by_cases h : p + q ≤ i
  · have : ¬ i - p < q := by omega
    simp [this]
  · simp [h]

/-- The signature with `p` positive, then `q` negative, then `r` null basis vectors. The counts are
    32-bit words, and a sum that is none is refused as such. -/
def ofCounts (p q r : Nat) : Except Error Signature :=
  if p + q + r ≥ 1 <<< 32 then .error .dimensionOverflow
  else if h : p + q + r ≤ maxDimension then
    .ok {
      dimension := p + q + r
      negative := (1 <<< q - 1) <<< p
      null := (1 <<< r - 1) <<< (p + q)
      dimension_le := h
      negative_lt := firstVectors_shift_lt (by omega)
      null_lt := firstVectors_shift_lt (by omega)
      disjoint := firstVectors_shift_disjoint p q r }
  else .error (.dimensionTooLarge (p + q + r))

/-- The signature of `n` positive basis vectors. -/
def euclidean (n : Nat) : Except Error Signature := ofCounts n 0 0

/-! ## Queries -/

/-- What basis vector `i` squares to. -/
def square (sig : Signature) (i : Nat) : Square :=
  if sig.null.testBit i then .zero
  else if sig.negative.testBit i then .negative
  else .positive

/-- The squares of all basis vectors, in order. -/
def squares (sig : Signature) : List Square :=
  (List.range sig.dimension).map sig.square

/-- The squares of all basis vectors, in order, as numbers. -/
def signs (sig : Signature) : List Int := sig.squares.map Square.sign

def negativeCount (sig : Signature) : Nat := grade sig.negative

def nullCount (sig : Signature) : Nat := grade sig.null

def positiveCount (sig : Signature) : Nat :=
  sig.dimension - sig.negativeCount - sig.nullCount

/-- Whether every basis vector squares to `1`. -/
def isEuclidean (sig : Signature) : Bool := sig.negative == 0 && sig.null == 0

/-- Whether some basis vector squares to `0`. -/
def isDegenerate (sig : Signature) : Bool := sig.null != 0

/-- The blade of all basis vectors, which is also the largest blade. -/
def pseudoscalar (sig : Signature) : Nat := firstVectors sig.dimension

/-- The number of basis blades. -/
def bladeCount (sig : Signature) : Nat := 1 <<< sig.dimension

/-- Whether the blade belongs to the algebra. -/
def contains (sig : Signature) (b : Nat) : Bool := b < 1 <<< sig.dimension

/-- Refuses a blade that does not belong to the algebra. -/
def validateBlade (sig : Signature) (b : Nat) : Except Error Unit :=
  Blade.validate sig.dimension b

/-- The usual name of the algebra, `Cl(p,q,r)`. -/
def name (sig : Signature) : String :=
  s!"Cl({sig.positiveCount},{sig.negativeCount},{sig.nullCount})"

end Signature

end GeometricAlgebra
