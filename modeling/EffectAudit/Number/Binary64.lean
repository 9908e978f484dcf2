/-!
# Binary floating-point numbers of 64 bits

A number is held as its 64 bits: a sign, eleven bits of exponent and fifty-two of fraction. All
rounding is done on exact ratios of natural numbers, so no operation here depends on the machine.

## Main definitions

* `Binary64`: the numbers, by their bits
* `Binary64.ofRatio`: the number nearest to a ratio, a half going to the even neighbour
* `Binary64.ofScaled?`: a significand times a power of ten, rounded factor by factor
-/

namespace EffectAudit

/-- A floating-point number of 64 bits. -/
structure Binary64 where
  bits : UInt64
  deriving DecidableEq

/-- The integer nearest to `num / den`; a half goes to the even neighbour. -/
def roundHalfEven (num den : Nat) : Nat :=
  let q := num / den
  let twice := 2 * (num % den)
  if twice < den then q
  else if den < twice then q + 1
  else if q % 2 = 0 then q else q + 1

/-- The ratio `m · b ^ e` as a numerator and a denominator. -/
def scaledRatio (m b : Nat) (e : Int) : Nat × Nat :=
  if 0 ≤ e then (m * Nat.pow b e.toNat, 1) else (m, Nat.pow b (-e).toNat)

namespace Binary64

/-- The bits of positive infinity. -/
def infinityBits : Nat := 0x7FF0000000000000

/-- The greatest exponent `e` with `2 ^ e ≤ num / den`, for a positive ratio. -/
def ratioLog2 (num den : Nat) : Int :=
  let guess : Int := (num.log2 : Int) - den.log2
  let (n, d) := scaledRatio num 2 (-guess)
  if n < den * d then guess - 1 else guess

/-- The bits of the number nearest to `num / den`; at least `infinityBits` beyond the range. -/
def nearestBits (num den : Nat) : Nat :=
  if num = 0 then 0
  else
    let e := max (ratioLog2 num den - 52) (-1074)
    let (n, d) := scaledRatio num 2 (-e)
    (e + 1074).toNat * Nat.pow 2 52 + roundHalfEven n (den * d)

/-- The sign bit. -/
def isNegative (x : Binary64) : Bool := 0x8000000000000000 ≤ x.bits

/-- The bits without the sign. -/
def magnitudeBits (x : Binary64) : Nat := x.bits.toNat % Nat.pow 2 63

/-- Whether the number is neither infinite nor undefined. -/
def isFinite (x : Binary64) : Bool := x.magnitudeBits < infinityBits

/-- The number with the given sign and magnitude bits. -/
def ofMagnitude (negative : Bool) (magnitude : Nat) : Binary64 :=
  ⟨UInt64.ofNat (if negative then magnitude + Nat.pow 2 63 else magnitude)⟩

/-- The number nearest to `num / den`, or the infinity beyond the range. -/
def ofRatio (negative : Bool) (num den : Nat) : Binary64 :=
  ofMagnitude negative (min (nearestBits num den) infinityBits)

/-- The number nearest to an integer. -/
def ofInt (n : Int) : Binary64 := ofRatio (n < 0) n.natAbs 1

/-- The significand `m` and exponent `e` of a finite number, whose magnitude is `m · 2 ^ e`. -/
def decompose (x : Binary64) : Nat × Int :=
  let fraction : Nat := x.magnitudeBits % Nat.pow 2 52
  let biased : Nat := x.magnitudeBits / Nat.pow 2 52
  if biased = 0 then (fraction, -1074) else (fraction + Nat.pow 2 52, (biased : Int) - 1075)

/-- The magnitude of a finite number as a ratio. -/
def ratio (x : Binary64) : Nat × Nat :=
  let (m, e) := x.decompose
  scaledRatio m 2 e

/-- The power of ten nearest to `10 ^ k`. -/
def powerOfTen (k : Nat) : Binary64 := ofRatio false (Nat.pow 10 k) 1

/-- The product of two nonnegative finite numbers, rounded. -/
def mulMagnitude (x y : Binary64) : Binary64 :=
  let (a, b) := x.ratio
  let (c, d) := y.ratio
  ofRatio false (a * c) (b * d)

/-- The quotient of two nonnegative finite numbers, rounded; the divisor is not zero. -/
def divMagnitude (x y : Binary64) : Binary64 :=
  let (a, b) := x.ratio
  let (c, d) := y.ratio
  ofRatio false (a * d) (b * c)

/-- Divides by `1e308` until the exponent left over is at most 308 or nothing is left, then by the
power of ten left over. -/
def shrink (x : Binary64) (exponent : Nat) : Binary64 :=
  if exponent ≤ 308 then x.divMagnitude (powerOfTen exponent)
  else if x.magnitudeBits = 0 then x
  else shrink (x.divMagnitude (powerOfTen 308)) (exponent - 308)
  termination_by exponent

/-- The magnitude `significand · 10 ^ exponent`, with the significand, the power of ten and the
result each rounded; nothing beyond the range. -/
def ofScaled? (significand : Nat) (exponent : Int) : Option Binary64 :=
  let x := ofRatio false significand 1
  if exponent < 0 then some (x.shrink exponent.natAbs)
  else if 308 < exponent then if significand = 0 then some x else none
  else
    let y := x.mulMagnitude (powerOfTen exponent.toNat)
    if y.isFinite then some y else none

/-- The number with its sign bit set as given. -/
def withSign (negative : Bool) (x : Binary64) : Binary64 := ofMagnitude negative x.magnitudeBits

end Binary64

end EffectAudit
