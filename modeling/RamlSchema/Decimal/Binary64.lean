/-
RamlSchema/Decimal/Binary64.lean

Double-precision numbers as exact quantities.

`ofFloat` takes a finite double apart into a sign, a mantissa and a power of
two.  `nearest` goes the other way: it rounds a quotient of natural numbers to
the nearest double, a tie to the one with the even mantissa, and answers
infinity from half a unit above the greatest finite double on.  Both work in
`Nat`, so neither rounds twice.
-/

namespace RamlSchema.Decimal

/-- A finite double: `± mantissa * 2 ^ exponent`. -/
structure Binary64 where
  negative : Bool
  mantissa : Nat
  exponent : Int
deriving DecidableEq, Repr

namespace Binary64

/-- The least exponent of two that a double can have. -/
def leastExponent : Int := -1074

/-- The mantissa of a normal double lies from here up to twice this. -/
def leastNormal : Nat := Nat.pow 2 52

/-- The parts of a finite double. -/
def ofFloat (x : Float) : Binary64 :=
  let bits := x.toBits.toNat
  let fraction := bits % leastNormal
  let field := bits / leastNormal % 2048
  { negative := bits / Nat.pow 2 63 = 1
    mantissa := if field = 0 then fraction else leastNormal + fraction
    exponent := leastExponent + (field - 1 : Nat) }

/-! ### Rounding -/

/-- The natural number nearest to `num / den`, a tie going to the even one. -/
def roundHalfEven (num den : Nat) : Nat :=
  let q := num / den
  let r := num % den
  if 2 * r < den then q else if den < 2 * r then q + 1 else q + q % 2

/-- `num / den` scaled by `2 ^ (-k)`, as a quotient again. -/
def scaled (num den : Nat) (k : Int) : Nat × Nat :=
  if k < 0 then (num * Nat.pow 2 (-k).toNat, den) else (num, den * Nat.pow 2 k.toNat)

/-- The power of two in which a double near `num / den` is a whole number of
fifty-three bits, or the least one there is. -/
def unitExponent (num den : Nat) : Int :=
  let k : Int := (num.log2 : Int) - den.log2 - 52
  let (n, d) := scaled num den k
  max leastExponent (if n / d < leastNormal then k - 1 else k)

/-- The nonnegative double nearest to `num / den`. -/
def nearest (num den : Nat) : Float :=
  if num = 0 then 0.0
  else
    let k := unitExponent num den
    let (n, d) := scaled num den k
    let m := roundHalfEven n d
    -- a mantissa that rounds up to the next power of two carries into the exponent field
    let bits := if m < leastNormal then m
      else (k - leastExponent + 1).toNat * leastNormal + (m - leastNormal)
    Float.ofBits (UInt64.ofNat (min bits (2047 * leastNormal)))

/-- The double nearest to `coefficient * 10 ^ exponent`, with its sign.  Powers
of ten far outside the range are answered without being computed. -/
def ofScientific (negative : Bool) (coefficient : Nat) (exponent : Int) : Float :=
  let top : Int := exponent + (Nat.toDigits 10 coefficient).length
  let x :=
    if coefficient = 0 ∨ top < -330 then 0.0
    else if 310 < top then nearest (Nat.pow 2 1025) 1
    else if exponent < 0 then nearest coefficient (Nat.pow 10 (-exponent).toNat)
    else nearest (coefficient * Nat.pow 10 exponent.toNat) 1
  if negative then -x else x

end Binary64

end RamlSchema.Decimal
