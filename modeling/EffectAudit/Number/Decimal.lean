import EffectAudit.Number.Binary64

/-!
# Decimal text of floating-point numbers

A finite number is written with the fewest decimal digits that still round to it, and of those
with the digits nearest to its value. The text is positional while the point stands close to the
digits, and scientific otherwise.

## Main definitions

* `Binary64.shortest`: the digits and the exponent of the shortest decimal
* `DecimalLayout`: where positional notation ends
* `Binary64.text`: the text of a finite number
-/

namespace EffectAudit

/-- Whether the ratio `a / b` is less than `c / d`, or equal if `closed`. -/
def ratioBelow (closed : Bool) (a b c d : Nat) : Bool :=
  if closed then a * d ≤ c * b else a * d < c * b

/-- The exponent `k` with `10 ^ (k - 1) ≤ num / den < 10 ^ k`, for a positive ratio. -/
def ratioDigits (num den : Nat) : Int :=
  if den ≤ num then ((Nat.toDigits 10 (num / den)).length : Int)
  else 1 - ((Nat.toDigits 10 ((den - 1) / num)).length : Int)

/-- Drops trailing decimal zeros and counts them, at most `limit` of them. -/
def dropZeros : Nat → Nat → Nat × Nat
  | 0, n => (n, 0)
  | limit + 1, n =>
    if n ≠ 0 ∧ n % 10 = 0 then
      let (m, k) := dropZeros limit (n / 10)
      (m, k + 1)
    else (n, 0)

namespace Binary64

/-- Whether the decimal `c · 10 ^ g` rounds to the positive finite number. It must lie between the
midpoints to the two neighbours, ends included when the significand is even. -/
def isNearestTo (x : Binary64) (c : Nat) (g : Int) : Bool :=
  let (m, e) := x.decompose
  let narrow := m == Nat.pow 2 52 && decide (-1074 < e)
  let (lowNum, lowDen) := scaledRatio (if narrow then 4 * m - 1 else 4 * m - 2) 2 (e - 2)
  let (highNum, highDen) := scaledRatio (4 * m + 2) 2 (e - 2)
  let (n, d) := scaledRatio c 10 g
  let closed := m % 2 == 0
  ratioBelow closed lowNum lowDen n d && ratioBelow closed n d highNum highDen

/-- The decimal with `digits` digits nearest to the positive finite number among its two neighbours
on that grid, if one of them rounds to the number. -/
def onGrid? (x : Binary64) (digits : Nat) : Option (Nat × Int) :=
  let (num, den) := x.ratio
  let g := ratioDigits num den - digits
  let (n, d) := scaledRatio num 10 (-g)
  let below := n / (d * den)
  match x.isNearestTo below g, x.isNearestTo (below + 1) g with
  | true, true => some (roundHalfEven n (d * den), g)
  | true, false => some (below, g)
  | false, true => some (below + 1, g)
  | false, false => none

/-- The shortest decimal of a positive finite number: its digits as a number that does not end in
zero, and the power of ten they are scaled by. Seventeen digits always suffice. -/
def shortest (x : Binary64) : Nat × Int :=
  match (List.range' 1 17).findSome? x.onGrid? with
  | some (c, g) =>
    let (m, k) := dropZeros 17 c
    (m, g + k)
  | none => (0, 0)

end Binary64

/-- Where positional notation ends. -/
structure DecimalLayout where
  /-- Greatest number of digits before the point. -/
  integerDigits : Int
  /-- Greatest number of zeros directly after the point. -/
  leadingZeros : Int

/-- Numbers are positional with up to sixteen digits before the point, and with up to four zeros
after it. -/
def DecimalLayout.standard : DecimalLayout := ⟨16, 4⟩

/-- A run of zeros. -/
def zeros (n : Int) : String := String.ofList (List.replicate n.toNat '0')

/-- The text of the decimal `digits · 10 ^ exponent`. A whole number keeps `.0`, and an exponent
always carries its sign. -/
def DecimalLayout.text (layout : DecimalLayout) (digits : Nat) (exponent : Int) : String :=
  let shown := Nat.repr digits
  let point : Int := shown.length + exponent
  if 0 ≤ exponent ∧ point ≤ layout.integerDigits then shown ++ zeros exponent ++ ".0"
  else if 0 < point ∧ point ≤ layout.integerDigits then
    let cs := shown.toList
    String.ofList (cs.take point.toNat) ++ "." ++ String.ofList (cs.drop point.toNat)
  else if -layout.leadingZeros ≤ point ∧ point ≤ 0 then "0." ++ zeros (-point) ++ shown
  else
    let mantissa := match shown.toList with
      | [] => ""
      | [c] => String.singleton c
      | c :: cs => String.singleton c ++ "." ++ String.ofList cs
    mantissa ++ (if 0 < point then "e+" else "e") ++ toString (point - 1)

/-- The text of a finite number. -/
def Binary64.text (x : Binary64) : String :=
  let sign := if x.isNegative then "-" else ""
  if x.magnitudeBits = 0 then sign ++ "0.0"
  else
    let (digits, exponent) := x.shortest
    sign ++ DecimalLayout.standard.text digits exponent

end EffectAudit
