/-
RamlSchema/Decimal/Shortest.lean

The shortest decimal that reads back as a given double.

The reals that round to a double form an interval around it: half a unit of
the last place up, and half a unit down, except that the unit below a power of
two is half as wide.  The ends belong to the interval when the mantissa is
even.  A power of ten lays a grid over the reals; the coarsest grid with a
positive point in the interval gives the fewest digits, and of its points the
one nearest to the double is taken, the even one in a tie.  If any point of a
grid lies in the interval, one of the two around the double itself does, so
only those two are tried.
-/
import RamlSchema.Decimal.Binary64

namespace RamlSchema.Decimal

/-- The number `coefficient * 10 ^ exponent`. -/
structure Scientific where
  coefficient : Nat
  exponent : Int
deriving DecidableEq, Repr

namespace Binary64

/-- The interval of reals that round to a double, in quarters of its last
place. -/
structure Neighbourhood where
  low : Nat
  value : Nat
  high : Nat
  closed : Bool

/-- The neighbourhood of a double other than zero. -/
def neighbourhood (b : Binary64) : Neighbourhood :=
  let below := if b.mantissa = leastNormal ∧ b.exponent ≠ leastExponent then 1 else 2
  { low := 4 * b.mantissa - below
    value := 4 * b.mantissa
    high := 4 * b.mantissa + 2
    closed := b.mantissa % 2 = 0 }

/-- The point of the grid `10 ^ e` that stands for the double, if there is one:
the nearest to it among the positive points of its neighbourhood. -/
def gridPoint (b : Binary64) (e : Int) : Option Nat :=
  let n := b.neighbourhood
  let k := b.exponent - 2
  -- a quarter of the last place is `up / down` steps of the grid
  let up :=
    (if k < 0 then 1 else Nat.pow 2 k.toNat) * (if e < 0 then Nat.pow 10 (-e).toNat else 1)
  let down :=
    (if k < 0 then Nat.pow 2 (-k).toNat else 1) * (if e < 0 then 1 else Nat.pow 10 e.toNat)
  let inside (c : Nat) : Bool :=
    let x := c * down
    0 < c && (if n.closed then n.low * up ≤ x && x ≤ n.high * up
      else n.low * up < x && x < n.high * up)
  let c := n.value * up / down
  let r := n.value * up % down
  match inside c, inside (c + 1) with
  | true, true => some (roundHalfEven (c * down + r) down)
  | true, false => some c
  | false, true => some (c + 1)
  | false, false => none

/-- The exponents of ten to try, the coarsest grid first. -/
def gridExponents : List Int :=
  (List.range 635).map fun i : Nat => 309 - (i : Int)

/-- The shortest decimal that reads back as the absolute value of the double. -/
def shortest (b : Binary64) : Scientific :=
  (gridExponents.findSome? fun e => (b.gridPoint e).map (Scientific.mk · e)).getD ⟨0, 0⟩

end Binary64

end RamlSchema.Decimal
