import GeometricAlgebra.Outermorphism

set_option autoImplicit false

/-! # Random multivectors and maps

Random numbers come from a source of 64-bit words: words laid out in advance, and after them a
stream that is computed from a seed. A draw takes as many words as it needs, in order, and what it
makes of them is fixed, so the same words give the same multivectors. Coefficients are uniform
between `-1` and `1`, and what cannot be drawn is refused before any word is taken. -/

namespace GeometricAlgebra

/-! ## Words -/

/-- A source of words. -/
structure WordSource where
  /-- The words that come first. -/
  ahead : List UInt64
  /-- What the words after them are computed from. -/
  seed : UInt64

namespace WordSource

/-- What is added to the seed for every word. -/
def increment : UInt64 := 0x9e3779b97f4a7c15

/-- Scatters the bits of a word. -/
def scramble (w : UInt64) : UInt64 :=
  let w := (w ^^^ w >>> 30) * 0xbf58476d1ce4e5b9
  let w := (w ^^^ w >>> 27) * 0x94d049bb133111eb
  w ^^^ w >>> 31

/-- The next word, and the source after it. -/
def next (source : WordSource) : UInt64 × WordSource :=
  match source.ahead with
  | w :: rest => (w, { source with ahead := rest })
  | [] =>
    let seed := source.seed + increment
    (scramble seed, { source with seed })

end WordSource

/-- A random value, or the reason why there is none. -/
abbrev Sampler := ExceptT Error (StateM WordSource)

namespace Sampler

/-! ## Numbers -/

/-- A random word. -/
def word : Sampler UInt64 := do
  let (w, source) := (← get).next
  set source
  return w

/-- The number of which a word gives the fraction: from `1` up to below `2`. -/
def unitFloat (w : UInt64) : Float := Float.ofBits ((0x3ff0000000000000 : UInt64) ||| w >>> 12)

/-- A number from `-1` up to below `1`. -/
def scalar : Sampler Float := do
  return (unitFloat (← word) - 1.0) * 2.0 + (-1.0)

/-- True with the given probability, which is at most one. A certain outcome takes no word. -/
def chance (p : Float) : Sampler Bool := do
  if p == 1.0 then return true
  else return (← word) < (p * 18446744073709551616.0).toUInt64

/-- The part of a word that counts the whole steps of size `range` in it, and the rest. -/
def scaled (w range : UInt64) : Nat × Nat :=
  let product := w.toNat * range.toNat
  (product >>> 64, product % (1 <<< 64))

/-- A word up to `max`. Where the rest of the first word leaves it open which one, a second word
    decides. -/
def below (max : UInt64) : Sampler Nat := do
  let range := max + 1
  let w ← word
  if range = 0 then return w.toNat
  else
    let (high, low) := scaled w range
    if low > (0 - range).toNat then
      let (carry, _) := scaled (← word) range
      return if low + carry ≥ 1 <<< 64 then high + 1 else high
    else return high

/-- As many values as asked for. -/
def replicate {β : Type} (n : Nat) (draw : Sampler β) : Sampler (List β) :=
  (List.replicate n draw).mapM id

/-! ## Multivectors -/

/-- The most coefficients that a dense multivector is drawn with. -/
def maxDense : Nat := 1 <<< 20

/-- A vector. -/
def vector (n : Nat) : Sampler (Multivector Float) := do
  return .vector (← replicate n scalar)

/-- A multivector with all blades of one grade. -/
def kvector (n k : Nat) : Sampler (Multivector Float) := do
  Blade.validateDimension n
  if k > n then throw (.gradeTooLarge k n)
  else if binomial n k > maxDense then throw (.tooManyToFill k n (binomial n k))
  else return .dense k (← replicate (binomial n k) scalar)

/-- The compact form of terms, of which the last one for a blade counts. -/
def compact (terms : List (Nat × Float)) : Multivector Float :=
  Terms.compact Scalars.floats (.ofList terms)

/-- A multivector in which every blade occurs with the given probability. -/
def multivector (n : Nat) (density : Float) : Sampler (Multivector Float) := do
  Blade.validateDimension n
  if !(0.0 ≤ density && density ≤ 1.0) then throw (.densityOutside (Number.full density))
  else if 1 <<< n > maxDense then throw (.tooManyToSample (1 <<< n) n)
  else
    let terms ← (List.range (1 <<< n)).filterMapM fun b => do
      if ← chance density then return some (b, ← scalar) else return none
    return compact terms

/-- A multivector with the given number of draws of a blade. -/
def sparse (n draws : Nat) : Sampler (Multivector Float) := do
  Blade.validateDimension n
  return compact (← replicate draws do
    let b ← below (UInt64.ofNat (Blade.firstVectors n))
    return (b, ← scalar))

/-- A linear map. -/
def outermorphism (domain target : Nat) : Sampler (Outermorphism Float) := do
  Blade.validateDimension domain
  Blade.validateDimension target
  let columns ← replicate domain (replicate target scalar)
  Outermorphism.ofColumns Scalars.floats target columns

end Sampler

end GeometricAlgebra
