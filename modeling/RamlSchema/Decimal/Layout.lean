/-
RamlSchema/Decimal/Layout.lean

How a double is written: the shortest digits that read back, laid out either
with the point in its place or in scientific notation.

Where the one form ends and the other begins, and whether a positive exponent
carries its sign, is up to the format that the number is written in; a `Layout`
holds these decisions.  Positional notation always has a fraction part, and
scientific notation only where there is a second digit.
-/
import RamlSchema.Decimal.Shortest

namespace RamlSchema.Decimal

/-- The decisions of a format on how it writes a finite double.  The bounds are
for the power of ten of the first digit, both included. -/
structure Layout where
  leastPositional : Int
  greatestPositional : Int
  signedExponent : Bool

/-- The decimal digits of a natural number. -/
def digits (n : Nat) : List Char :=
  Nat.toDigits 10 n

/-- Digits with the point placed after the digit for `10 ^ 0`, where the first
digit counts `10 ^ x`. -/
def positional (ds : List Char) (x : Int) : List Char :=
  if x < 0 then
    '0' :: '.' :: List.replicate (-x - 1).toNat '0' ++ ds
  else
    let whole := ds.take (x.toNat + 1)
    let fraction := ds.drop (x.toNat + 1)
    whole ++ List.replicate (x.toNat + 1 - whole.length) '0' ++
      '.' :: (if fraction.isEmpty then ['0'] else fraction)

/-- Digits with a point after the first, and the power of ten of that digit. -/
def scientific (signed : Bool) (ds : List Char) (x : Int) : List Char :=
  let tail := ds.drop 1
  ds.take 1 ++ (if tail.isEmpty then [] else '.' :: tail) ++
    'e' :: (if x < 0 then ['-'] else if signed then ['+'] else []) ++ digits x.natAbs

/-- The text of a finite double. -/
def Layout.render (l : Layout) (x : Float) : List Char :=
  let b := Binary64.ofFloat x
  let sign := if b.negative then ['-'] else []
  if b.mantissa = 0 then sign ++ ['0', '.', '0']
  else
    let d := b.shortest
    let ds := digits d.coefficient
    let e := d.exponent + (ds.length - 1 : Nat)
    -- the grid may hit a power of ten, whose zeros belong to the exponent
    let ds := (ds.reverse.dropWhile (· = '0')).reverse
    sign ++ (if l.leastPositional ≤ e ∧ e ≤ l.greatestPositional then positional ds e
      else scientific l.signedExponent ds e)

end RamlSchema.Decimal
