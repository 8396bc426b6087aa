import GeometricAlgebra.Proofs.Blade.Vectors
import GeometricAlgebra.Proofs.Interchange.Text

set_option autoImplicit false

/-! # Signatures from lists and from counts

A list of numbers is a signature iff it is not too long and every number is a square. The signature
then gives the list back, and counts each square as often as the list does (`ofSigns_eq_ok_iff`).
Counts give the signature of the list that they describe (`ofCounts_eq_ofSquares`).

Both ways are also taken in machine words, where a list sets its blades bit by bit and counts shift
blocks of bits into place. No bit is lost up to the full width of the words, and what is refused is
refused in the same way (`wordsOfSquares_eq`, `wordsOfCounts_eq`). -/

namespace GeometricAlgebra

/-! ## Squares as numbers -/

namespace Square

variable {q : Square} {s : Int}

theorem ofSign_eq_ok_iff : ofSign s = .ok q ↔ s = q.sign := by
  constructor
  · intro h
    unfold ofSign at h
    split_ifs at h with hone hminus hzero <;> cases h
    · exact hone
    · exact hminus
    · exact hzero
  · rintro rfl
    exact ofSign_sign q

theorem sign_injective : Function.Injective sign := by
  intro p q h
  have hp := ofSign_sign p
  rw [h, ofSign_sign] at hp
  exact (Except.ok.inj hp).symm

theorem exists_sign_eq_iff : (∃ q : Square, q.sign = s) ↔ s = 1 ∨ s = -1 ∨ s = 0 := by
  constructor
  · rintro ⟨q, rfl⟩
    cases q <;> decide
  · rintro (rfl | rfl | rfl)
    · exact ⟨positive, rfl⟩
    · exact ⟨negative, rfl⟩
    · exact ⟨zero, rfl⟩

/-- The blade of a square has as many vectors as the square occurs. -/
theorem grade_mask (q : Square) (squares : List Square) :
    Blade.grade (mask q squares) = squares.count q := by
  induction squares with
  | nil => exact Blade.grade_eq_zero_iff.mpr rfl
  | cons s rest ih =>
      have hstep : ∀ bit < 2, Blade.grade (bit + 2 * mask q rest)
          = bit + Blade.grade (mask q rest) := by
        intro bit hbit
        rcases Nat.eq_zero_or_pos (bit + 2 * mask q rest) with hzero | hpos
        · have hrest : mask q rest = 0 := by omega
          have hbit0 : bit = 0 := by omega
          rw [hrest, hbit0, Nat.mul_zero, Nat.zero_add, Nat.zero_add]
        · have hhalf : (bit + 2 * mask q rest) / 2 = mask q rest := by omega
          have hlow : (bit + 2 * mask q rest) % 2 = bit := by omega
          rw [Blade.grade, if_neg hpos.ne', hhalf, hlow]
      rw [mask, List.count_cons, hstep _ (by split <;> decide), ih, add_comm]
      simp only [beq_iff_eq]

/-- Every square is one of the three. -/
theorem count_add_count_add_count (squares : List Square) :
    squares.count positive + squares.count negative + squares.count zero = squares.length := by
  induction squares with
  | nil => rfl
  | cons s rest ih =>
      rw [List.count_cons, List.count_cons, List.count_cons, List.length_cons]
      cases s <;> simp <;> omega

end Square

namespace Signature

variable {sig : Signature} {signs : List Int} {squares : List Square}

/-! ## Signatures from lists -/

theorem ofSquares_eq_ok_iff :
    ofSquares squares = .ok sig ↔ squares.length ≤ maxDimension ∧ sig.squares = squares := by
  constructor
  · intro h
    unfold ofSquares at h
    split_ifs at h with hlength
    cases h
    refine ⟨hlength, List.ext_getElem? fun i => ?_⟩
    rw [Signature.squares, List.getElem?_map]
    rcases Nat.lt_or_ge i squares.length with hi | hi
    · rw [List.getElem?_range hi, Option.map_some, List.getElem?_eq_getElem hi, square]
      simp only [Square.testBit_mask, List.getElem?_eq_getElem hi, Option.some.injEq,
        decide_eq_true_eq]
      cases squares[i] <;> rfl
    · rw [List.getElem?_eq_none (by simpa using hi), List.getElem?_eq_none hi, Option.map_none]
  · rintro ⟨-, rfl⟩
    exact ofSquares_squares sig

theorem exists_ofSquares_iff :
    (∃ sig, ofSquares squares = .ok sig) ↔ squares.length ≤ maxDimension := by
  refine ⟨fun ⟨sig, h⟩ => (ofSquares_eq_ok_iff.mp h).1, fun h => ?_⟩
  rw [ofSquares, dif_pos h]
  exact ⟨_, rfl⟩

/-- Numbers are read as squares one by one. -/
theorem mapM_ofSign_eq_ok_iff :
    signs.mapM Square.ofSign = .ok squares ↔ signs = squares.map Square.sign := by
  rw [mapM_eq_ok_iff]
  simp only [Square.ofSign_eq_ok_iff]
  rw [← List.forall₂_map_right_iff, List.forall₂_eq_eq_eq]

/-- **A signature is read from a list iff the list is that of its squares.** -/
theorem ofSigns_eq_ok_iff :
    ofSigns signs = .ok sig ↔ signs.length ≤ maxDimension ∧ sig.signs = signs := by
  rw [ofSigns, bind_eq_ok_iff]
  simp only [mapM_ofSign_eq_ok_iff, ofSquares_eq_ok_iff]
  constructor
  · rintro ⟨squares, rfl, hlength, rfl⟩
    exact ⟨by rwa [List.length_map], rfl⟩
  · rintro ⟨hlength, rfl⟩
    rw [Signature.signs, List.length_map] at hlength
    exact ⟨sig.squares, rfl, hlength, rfl⟩

theorem exists_ofSigns_iff :
    (∃ sig, ofSigns signs = .ok sig) ↔
      signs.length ≤ maxDimension ∧ ∀ s ∈ signs, s = 1 ∨ s = -1 ∨ s = 0 := by
  have hsquares : (∃ squares : List Square, squares.map Square.sign = signs) ↔
      ∀ s ∈ signs, s = 1 ∨ s = -1 ∨ s = 0 := by
    simp only [← Square.exists_sign_eq_iff]
    exact Set.ext_iff.mp (Set.range_list_map Square.sign) signs
  rw [← hsquares]
  constructor
  · rintro ⟨sig, h⟩
    obtain ⟨hlength, rfl⟩ := ofSigns_eq_ok_iff.mp h
    exact ⟨hlength, sig.squares, rfl⟩
  · rintro ⟨hlength, squares, rfl⟩
    rw [List.length_map] at hlength
    obtain ⟨sig, h⟩ := exists_ofSquares_iff.mpr hlength
    exact ⟨sig, bind_eq_ok_iff.mpr ⟨squares, mapM_ofSign_eq_ok_iff.mpr rfl, h⟩⟩

/-! ## The blades and the counts of a signature -/

theorem length_signs (sig : Signature) : sig.signs.length = sig.dimension := by
  simp [Signature.signs, Signature.squares]

theorem pseudoscalar_eq (sig : Signature) : sig.pseudoscalar = 2 ^ sig.dimension - 1 := by
  rw [pseudoscalar, Blade.firstVectors, Nat.min_eq_left sig.dimension_le, Nat.one_shiftLeft]

/-- A blade of the algebra is within the blade of all vectors. -/
theorem and_pseudoscalar {b : Nat} (hb : b < 1 <<< sig.dimension) :
    b &&& sig.pseudoscalar = b := by
  rw [pseudoscalar_eq, Nat.and_two_pow_sub_one_eq_mod]
  exact Nat.mod_eq_of_lt (by rwa [Nat.one_shiftLeft] at hb)

theorem count_signs (sig : Signature) (q : Square) :
    sig.signs.count q.sign = sig.squares.count q :=
  List.count_map_of_injective _ _ Square.sign_injective _

theorem negativeCount_eq (sig : Signature) : sig.negativeCount = sig.squares.count .negative := by
  rw [negativeCount, ← mask_squares sig.negative_lt fun _ => square_eq_negative_iff,
    Square.grade_mask]

theorem nullCount_eq (sig : Signature) : sig.nullCount = sig.squares.count .zero := by
  rw [nullCount, ← mask_squares sig.null_lt fun _ => square_eq_zero_iff, Square.grade_mask]

theorem positiveCount_eq (sig : Signature) : sig.positiveCount = sig.squares.count .positive := by
  have hlength : sig.squares.length = sig.dimension := by simp [Signature.squares]
  have hsum := Square.count_add_count_add_count sig.squares
  rw [positiveCount, negativeCount_eq, nullCount_eq]
  omega

/-! ## Signatures from counts -/

/-- The squares that counts stand for. -/
def squaresOfCounts (p q r : Nat) : List Square :=
  List.replicate p .positive ++ (List.replicate q .negative ++ List.replicate r .zero)

theorem length_squaresOfCounts (p q r : Nat) : (squaresOfCounts p q r).length = p + q + r := by
  simp [squaresOfCounts, add_assoc]

theorem getElem?_squaresOfCounts (p q r i : Nat) :
    (squaresOfCounts p q r)[i]? = if i < p then some .positive else if i < p + q then some .negative
      else if i < p + q + r then some .zero else none := by
  simp only [squaresOfCounts, List.getElem?_append, List.getElem?_replicate, List.length_replicate]
  grind

theorem testBit_block (start n i : Nat) :
    ((1 <<< n - 1) <<< start).testBit i = decide (start ≤ i ∧ i < start + n) := by
  rw [Nat.testBit_shiftLeft, Nat.one_shiftLeft, Nat.testBit_two_pow_sub_one, ← Bool.decide_and,
    decide_eq_decide]
  omega

/-- The negative vectors come after the positive ones. -/
theorem mask_negative_squaresOfCounts (p q r : Nat) :
    Square.mask .negative (squaresOfCounts p q r) = (1 <<< q - 1) <<< p := by
  refine Nat.eq_of_testBit_eq fun i => ?_
  rw [Square.testBit_mask, getElem?_squaresOfCounts, testBit_block, decide_eq_decide]
  split_ifs <;> simp <;> omega

/-- The null vectors come last. -/
theorem mask_zero_squaresOfCounts (p q r : Nat) :
    Square.mask .zero (squaresOfCounts p q r) = (1 <<< r - 1) <<< (p + q) := by
  refine Nat.eq_of_testBit_eq fun i => ?_
  rw [Square.testBit_mask, getElem?_squaresOfCounts, testBit_block, decide_eq_decide]
  split_ifs <;> simp <;> omega

/-- **Counts give the signature of the list that they stand for.** -/
theorem ofCounts_eq_ofSquares {p q r : Nat} (h : p + q + r ≤ maxDimension) :
    ofCounts p q r = ofSquares (squaresOfCounts p q r) := by
  have hword : ¬ p + q + r ≥ 1 <<< 32 := fun hge => absurd (hge.trans h) (by decide)
  have hlength : (squaresOfCounts p q r).length ≤ maxDimension := by rwa [length_squaresOfCounts]
  rw [ofCounts, if_neg hword, dif_pos h, ofSquares, dif_pos hlength]
  simp only [length_squaresOfCounts, mask_negative_squaresOfCounts, mask_zero_squaresOfCounts]

theorem exists_ofCounts_iff {p q r : Nat} :
    (∃ sig, ofCounts p q r = .ok sig) ↔ p + q + r ≤ maxDimension := by
  constructor
  · rintro ⟨sig, h⟩
    unfold ofCounts at h
    split_ifs at h with hword hdimension
    exact hdimension
  · intro h
    rw [ofCounts_eq_ofSquares h, exists_ofSquares_iff, length_squaresOfCounts]
    exact h

/-! ## Words -/

/-- A signature in machine words. -/
structure Words where
  dimension : UInt32
  negative : UInt64
  null : UInt64
  deriving DecidableEq

def toWords (sig : Signature) : Words :=
  ⟨.ofNat sig.dimension, .ofNat sig.negative, .ofNat sig.null⟩

/-- Sets the bits of squares, the first of which is that of vector `i`. -/
def setSquares : (i : Nat) → Words → List Square → Words
  | _, w, [] => w
  | i, w, .positive :: rest => setSquares (i + 1) w rest
  | i, w, .negative :: rest =>
    setSquares (i + 1) { w with negative := w.negative ||| 1 <<< UInt64.ofNat i } rest
  | i, w, .zero :: rest =>
    setSquares (i + 1) { w with null := w.null ||| 1 <<< UInt64.ofNat i } rest

/-- `ofSquares` in words. -/
def wordsOfSquares (squares : List Square) : Except Error Words :=
  if squares.length > maxDimension then .error (.dimensionTooLarge squares.length)
  else .ok (setSquares 0 ⟨.ofNat squares.length, 0, 0⟩ squares)

/-- The sum of two words, if it is one. -/
def addWords? (x y : UInt32) : Option UInt32 :=
  if x.toNat + y.toNat < 1 <<< 32 then some (x + y) else none

/-- The lowest `n` bits, and all of them from 64 on. -/
def lowBits (n : UInt32) : UInt64 :=
  if 64 ≤ n then 0xffffffffffffffff else (1 <<< n.toUInt64) - 1

/-- A block of `n` bits from bit `start` on. Only an empty block can start at bit 64, which is no
    amount to shift by. -/
def blockOfBits (start n : UInt32) : UInt64 :=
  if n = 0 then 0 else lowBits n <<< (min start 63).toUInt64

/-- `ofCounts` in words. -/
def wordsOfCounts (p q r : UInt32) : Except Error Words :=
  match (addWords? p q).bind (addWords? · r) with
  | none => .error .dimensionOverflow
  | some n =>
    if n.toNat > maxDimension then .error (.dimensionTooLarge n.toNat)
    else .ok ⟨n, blockOfBits p q, blockOfBits (p + q) r⟩

/-- The vector of the first square is set below those of the others. -/
theorem mask_cons_shiftLeft (q s : Square) (rest : List Square) (i : Nat) :
    Square.mask q (s :: rest) <<< i
      = (if s = q then 1 <<< i else 0) ||| Square.mask q rest <<< (i + 1) := by
  have hbit : (if s = q then 1 <<< i else 0) = (if s = q then 1 else 0) <<< i := by
    split
    · rfl
    · rw [Nat.zero_shiftLeft]
  have hrest : Square.mask q rest <<< (i + 1) = (2 ^ 1 * Square.mask q rest) <<< i := by
    rw [Nat.shiftLeft_eq, Nat.shiftLeft_eq, Nat.pow_succ]
    ring
  have hlow : (if s = q then 1 else 0) < 2 ^ 1 := by split <;> decide
  rw [hbit, hrest, ← Nat.shiftLeft_or_distrib, Nat.or_comm,
    ← Nat.two_pow_add_eq_or_of_lt hlow, Square.mask, pow_one, add_comm]

theorem toNat_oneShiftLeft {i : Nat} (hi : i < 64) :
    (1 <<< UInt64.ofNat i : UInt64).toNat = 1 <<< i := by
  have hamount : (UInt64.ofNat i).toNat % 64 = i := by
    rw [UInt64.toNat_ofNat_of_lt' (hi.trans (by decide)), Nat.mod_eq_of_lt hi]
  have hpow : 1 <<< i < 2 ^ 64 := by
    rw [Nat.one_shiftLeft]
    exact Nat.pow_lt_pow_right (by decide) hi
  rw [UInt64.toNat_shiftLeft, hamount]
  exact Nat.mod_eq_of_lt hpow

/-- Squares set the bits of their blades, and no others. -/
theorem setSquares_spec {i : Nat} {w : Words} (h : i + squares.length ≤ 64) :
    (setSquares i w squares).dimension = w.dimension ∧
      (setSquares i w squares).negative.toNat
        = w.negative.toNat ||| Square.mask .negative squares <<< i ∧
      (setSquares i w squares).null.toNat = w.null.toNat ||| Square.mask .zero squares <<< i := by
  induction squares generalizing i w with
  | nil => simp [setSquares, Square.mask]
  | cons s rest ih =>
      rw [List.length_cons] at h
      have hbit := toNat_oneShiftLeft (i := i) (by omega)
      have hnext : i + 1 + rest.length ≤ 64 := by omega
      rw [mask_cons_shiftLeft, mask_cons_shiftLeft]
      cases s with
      | positive => simpa [setSquares] using ih (w := w) hnext
      | negative =>
          obtain ⟨hdimension, hnegative, hnull⟩ :=
            ih (w := { w with negative := w.negative ||| 1 <<< UInt64.ofNat i }) hnext
          refine ⟨hdimension, ?_, by simpa [setSquares] using hnull⟩
          rw [setSquares, hnegative, UInt64.toNat_or, hbit, if_pos rfl, Nat.or_assoc]
      | zero =>
          obtain ⟨hdimension, hnegative, hnull⟩ :=
            ih (w := { w with null := w.null ||| 1 <<< UInt64.ofNat i }) hnext
          refine ⟨hdimension, by simpa [setSquares] using hnegative, ?_⟩
          rw [setSquares, hnull, UInt64.toNat_or, hbit, if_pos rfl, Nat.or_assoc]

theorem eq_toWords {w : Words} (hdimension : w.dimension.toNat = sig.dimension)
    (hnegative : w.negative.toNat = sig.negative) (hnull : w.null.toNat = sig.null) :
    w = sig.toWords := by
  rw [toWords, ← hdimension, ← hnegative, ← hnull, UInt32.ofNat_toNat, UInt64.ofNat_toNat,
    UInt64.ofNat_toNat]

/-- **A list sets its blades in words**, or is refused in the same way. -/
theorem wordsOfSquares_eq (squares : List Square) :
    wordsOfSquares squares = (ofSquares squares).map toWords := by
  unfold wordsOfSquares ofSquares
  by_cases h : squares.length ≤ maxDimension
  · obtain ⟨hdimension, hnegative, hnull⟩ :=
      setSquares_spec (w := ⟨.ofNat squares.length, 0, 0⟩) ((Nat.zero_add _).trans_le h)
    rw [if_neg (not_lt.mpr h), dif_pos h]
    refine congrArg Except.ok (eq_toWords ?_ ?_ ?_)
    · rw [hdimension]
      exact UInt32.toNat_ofNat_of_lt' (h.trans_lt (by decide))
    · rw [hnegative, UInt64.toNat_zero, Nat.zero_or, Nat.shiftLeft_zero]
    · rw [hnull, UInt64.toNat_zero, Nat.zero_or, Nat.shiftLeft_zero]
  · rw [if_pos (not_le.mp h), dif_neg h]
    rfl

theorem toNat_lowBits {n : UInt32} (hn : n.toNat ≤ 64) : (lowBits n).toNat = 1 <<< n.toNat - 1 := by
  have hle : 64 ≤ n ↔ 64 ≤ n.toNat := UInt32.le_iff_toNat_le
  unfold lowBits
  split
  · next h =>
      rw [le_antisymm hn (hle.mp h)]
      rfl
  · next h =>
      have hlt : n.toNat < 64 := not_le.mp (mt hle.mpr h)
      have hpow := toNat_oneShiftLeft hlt
      have hpos : 1 ≤ 1 <<< n.toNat := by
        rw [Nat.one_shiftLeft]
        exact Nat.one_le_two_pow
      have hone : (1 : UInt64) ≤ 1 <<< UInt64.ofNat n.toNat := by
        rwa [UInt64.le_iff_toNat_le, hpow]
      have hword : n.toUInt64 = UInt64.ofNat n.toNat := by
        rw [← UInt64.toNat_inj, UInt32.toNat_toUInt64,
          UInt64.toNat_ofNat_of_lt' (hlt.trans (by decide))]
      rw [hword, UInt64.toNat_sub_of_le _ _ hone, hpow]
      rfl

/-- **A block of bits loses none of them** as long as it ends within the word. -/
theorem toNat_blockOfBits {start n : UInt32} (h : start.toNat + n.toNat ≤ 64) :
    (blockOfBits start n).toNat = (1 <<< n.toNat - 1) <<< start.toNat := by
  unfold blockOfBits
  split
  · next hn =>
      rw [hn]
      exact (Nat.zero_shiftLeft _).symm
  · next hn =>
      have hpos : n.toNat ≠ 0 := fun hzero => hn (UInt32.toNat_inj.mp hzero)
      have hmin : min start 63 = start := by
        refine if_pos (UInt32.le_iff_toNat_le.mpr ?_)
        show start.toNat ≤ 63
        omega
      have hamount : start.toUInt64.toNat % 64 = start.toNat := by
        rw [UInt32.toNat_toUInt64]
        omega
      have hlt := firstVectors_shift_lt (q := n.toNat) (s := start.toNat) (n := 64) (by omega)
      rw [hmin, UInt64.toNat_shiftLeft, hamount, toNat_lowBits (by omega)]
      exact Nat.mod_eq_of_lt hlt

theorem toNat_add_of_lt {x y : UInt32} (h : x.toNat + y.toNat < 1 <<< 32) :
    (x + y).toNat = x.toNat + y.toNat := by
  rw [UInt32.toNat_add]
  exact Nat.mod_eq_of_lt h

/-- Counts add up word by word iff their sum is a word. -/
theorem addWords?_addWords? (p q r : UInt32) :
    (addWords? p q).bind (addWords? · r)
      = if p.toNat + q.toNat + r.toNat < 1 <<< 32 then some (p + q + r) else none := by
  rw [addWords?]
  by_cases hpq : p.toNat + q.toNat < 1 <<< 32
  · rw [if_pos hpq, Option.bind_some, addWords?, toNat_add_of_lt hpq]
  · have hsum : ¬ p.toNat + q.toNat + r.toNat < 1 <<< 32 := by omega
    rw [if_neg hpq, if_neg hsum, Option.bind_none]

/-- **Counts set their blades in words**, or are refused in the same way. -/
theorem wordsOfCounts_eq (p q r : UInt32) :
    wordsOfCounts p q r = (ofCounts p.toNat q.toNat r.toNat).map toWords := by
  rw [wordsOfCounts, addWords?_addWords?, ofCounts]
  by_cases hword : p.toNat + q.toNat + r.toNat < 1 <<< 32
  · have hpq : (p + q).toNat = p.toNat + q.toNat := toNat_add_of_lt (by omega)
    have hsum : (p + q + r).toNat = p.toNat + q.toNat + r.toNat := by
      rw [toNat_add_of_lt (by rwa [hpq]), hpq]
    rw [if_pos hword, if_neg (not_le.mpr hword)]
    simp only [hsum]
    by_cases h : p.toNat + q.toNat + r.toNat ≤ maxDimension
    · rw [if_neg (not_lt.mpr h), dif_pos h]
      have hle : p.toNat + q.toNat + r.toNat ≤ 64 := h
      refine congrArg Except.ok (eq_toWords hsum ?_ ?_)
      · exact toNat_blockOfBits (by omega)
      · show (blockOfBits (p + q) r).toNat = (1 <<< r.toNat - 1) <<< (p.toNat + q.toNat)
        rw [toNat_blockOfBits (by omega), hpq]
    · rw [if_pos (not_le.mp h), dif_neg h]
      rfl
  · rw [if_neg hword, if_pos (not_lt.mp hword)]
    rfl

/-! ## Both ways -/

theorem map_sign_squaresOfCounts (p q r : Nat) :
    (squaresOfCounts p q r).map Square.sign
      = List.replicate p 1 ++ List.replicate q (-1) ++ List.replicate r 0 := by
  simp [squaresOfCounts, Square.sign]

/-- **Signatures from lists and from counts.** A list of numbers is a signature iff it has at most
    `maxDimension` members and each is `1`, `-1` or `0`. The signature gives the list back and is
    read back from its own text; its two blades have no vector in common and none outside the
    algebra; and it counts the squares as the list does. Counts are a signature iff their sum is at
    most `maxDimension`, and then the one of the list that they describe. Machine words hold all of
    this, and refuse what is refused. -/
theorem ofSigns_ofCounts :
    (∀ signs : List Int,
      ((∃ sig, ofSigns signs = .ok sig) ↔
        signs.length ≤ maxDimension ∧ ∀ s ∈ signs, s = 1 ∨ s = -1 ∨ s = 0) ∧
      ∀ sig, ofSigns signs = .ok sig →
        sig.signs = signs ∧ (Json.ofText? sig.toJson.pretty).bind ofJson? = some sig ∧
        sig.pseudoscalar = 2 ^ signs.length - 1 ∧ sig.negative &&& sig.null = 0 ∧
        sig.negative &&& sig.pseudoscalar = sig.negative ∧
        sig.null &&& sig.pseudoscalar = sig.null ∧
        sig.positiveCount = signs.count 1 ∧ sig.negativeCount = signs.count (-1) ∧
        sig.nullCount = signs.count 0) ∧
    (∀ p q r, ((∃ sig, ofCounts p q r = .ok sig) ↔ p + q + r ≤ maxDimension) ∧
      (p + q + r ≤ maxDimension → ofCounts p q r
        = ofSigns (List.replicate p 1 ++ List.replicate q (-1) ++ List.replicate r 0))) ∧
    (∀ squares, wordsOfSquares squares = (ofSquares squares).map toWords) ∧
    ∀ p q r : UInt32, wordsOfCounts p q r = (ofCounts p.toNat q.toNat r.toNat).map toWords := by
  refine ⟨fun signs => ⟨exists_ofSigns_iff, fun sig h => ?_⟩,
    fun p q r => ⟨exists_ofCounts_iff, fun h => ?_⟩, wordsOfSquares_eq, wordsOfCounts_eq⟩
  · obtain ⟨-, rfl⟩ := ofSigns_eq_ok_iff.mp h
    refine ⟨rfl, ?_, by rw [length_signs, pseudoscalar_eq], sig.disjoint,
      and_pseudoscalar sig.negative_lt, and_pseudoscalar sig.null_lt, ?_, ?_, ?_⟩
    · rw [Json.ofText?_pretty (wellWritten_toJson sig), Option.bind_some, ofJson?_toJson]
    · rw [positiveCount_eq, ← count_signs]
      rfl
    · rw [negativeCount_eq, ← count_signs]
      rfl
    · rw [nullCount_eq, ← count_signs]
      rfl
  · have hsquares : (squaresOfCounts p q r).map Square.sign
        = List.replicate p 1 ++ List.replicate q (-1) ++ List.replicate r 0 :=
      map_sign_squaresOfCounts p q r
    rw [ofCounts_eq_ofSquares h, ofSigns, mapM_ofSign_eq_ok_iff.mpr hsquares.symm]
    rfl

/-- All vectors but the last square to `1`, in the largest dimension. -/
theorem ofSigns_ofCounts_full :
    ∃ sig, ofCounts 63 0 1 = .ok sig ∧ ofSigns (List.replicate 63 1 ++ [0]) = .ok sig ∧
      sig.signs = List.replicate 63 1 ++ [0] ∧ sig.null &&& sig.pseudoscalar = sig.null ∧
      sig.positiveCount = 63 ∧ sig.nullCount = 1 := by
  obtain ⟨hsigns, hcounts, -⟩ := ofSigns_ofCounts
  obtain ⟨hexists, heq⟩ := hcounts 63 0 1
  obtain ⟨sig, hsig⟩ := hexists.mpr (by decide)
  have hlist : ofSigns (List.replicate 63 1 ++ [0]) = .ok sig := (heq (by decide)).symm.trans hsig
  obtain ⟨hback, -, -, -, -, hnull, hpositive, -, hcount⟩ := (hsigns _).2 sig hlist
  exact ⟨sig, hsig, hlist, hback, hnull, hpositive, hcount⟩

end Signature

end GeometricAlgebra
