/-
RamlSchema/Json/Numeral.lean

Numerals in JSON texts: their grammar, and the number that one stands for.

A numeral has a whole part without superfluous zeros, and may have a fraction
and an exponent.  Without either it is a whole number when it fits sixty-four
bits (unsigned, or signed and below zero); all others are doubles.

The significand of a double holds as many digits as fit sixty-four bits.
Further digits of the whole part only raise the exponent, and further digits of
the fraction are dropped.  The significand, rounded to a double, is then
multiplied or divided by a power of ten, so that the result may differ from the
nearest double in its last place.  A result that overflows is no number.
-/
import RamlSchema.Json.Basic
import RamlSchema.Json.Error
import RamlSchema.Decimal.Binary64

namespace RamlSchema.Json

/-- The parts of a numeral.  The fraction is empty where there is none. -/
structure Numeral where
  negative : Bool
  whole : List Char
  fraction : List Char
  exponent : Option (Bool × List Char)

namespace Numeral

/-! ### Grammar -/

/-- One digit or more; `onEnd` is the error at the end of the text. -/
def scanDigits (onEnd : ReadError) (cs : List Char) : Read (List Char) :=
  match cs with
  | [] => .error onEnd
  | c :: _ =>
    if c.isDigit then .ok (cs.takeWhile Char.isDigit, cs.dropWhile Char.isDigit)
    else .error .malformed

/-- The whole part: a zero that no digit follows, or digits. -/
def scanWhole (onEnd : ReadError) (cs : List Char) : Read (List Char) :=
  match cs with
  | '0' :: c :: r => if c.isDigit then .error .malformed else .ok (['0'], c :: r)
  | _ => scanDigits onEnd cs

/-- The fraction, if a point stands there. -/
def scanFraction (onEnd : ReadError) (cs : List Char) : Read (List Char) :=
  match cs with
  | '.' :: r => scanDigits onEnd r
  | _ => .ok ([], cs)

/-- A sign, where one may stand. -/
def scanSign (cs : List Char) : Bool × List Char :=
  match cs with
  | '+' :: r => (false, r)
  | '-' :: r => (true, r)
  | _ => (false, cs)

/-- The exponent, if its letter stands there. -/
def scanExponent (onEnd : ReadError) (cs : List Char) :
    Except ReadError (Option (Bool × List Char) × List Char) :=
  let power (r : List Char) : Except ReadError (Option (Bool × List Char) × List Char) := do
    let (negative, r) := scanSign r
    let (ds, r) ← scanDigits onEnd r
    return (some (negative, ds), r)
  match cs with
  | 'e' :: r => power r
  | 'E' :: r => power r
  | _ => .ok (none, cs)

/-- A numeral and what follows it.  In a skimmed text a numeral that breaks
off counts as malformed. -/
def scan (s : Strictness) (cs : List Char) : Except ReadError (Numeral × List Char) := do
  let onEnd := match s with
    | .full => ReadError.endOfText
    | .skim => ReadError.malformed
  let (negative, cs) := match cs with
    | '-' :: r => (true, r)
    | _ => (false, cs)
  let (whole, cs) ← scanWhole onEnd cs
  let (fraction, cs) ← scanFraction onEnd cs
  let (exponent, cs) ← scanExponent onEnd cs
  return ({ negative, whole, fraction, exponent }, cs)

/-! ### Value -/

/-- The number that a row of digits stands for. -/
def natOfDigits (ds : List Char) : Nat :=
  ds.foldl (fun n c => 10 * n + (c.toNat - '0'.toNat)) 0

/-- Appends digits to a significand as long as it fits sixty-four bits, and
returns the digits that are left. -/
def packDigits (n : Nat) : List Char → Nat × List Char
  | [] => (n, [])
  | c :: cs =>
    let n' := 10 * n + (c.toNat - '0'.toNat)
    if n' < Nat.pow 2 64 then packDigits n' cs else (n, c :: cs)

/-- `x / 10 ^ k`, in steps that do not leave the range of doubles. -/
def scaleDown (x : Float) (k : Nat) : Float :=
  if k ≤ 308 then x / Decimal.Binary64.ofScientific false 1 k
  else if x == 0.0 then x
  else scaleDown (x / Decimal.Binary64.ofScientific false 1 308) (k - 308)
termination_by k

/-- A significand times a power of ten, unless that overflows. -/
def scale? (significand : Nat) (exponent : Int) : Option Float :=
  let x := (UInt64.ofNat significand).toFloat
  if exponent < 0 then some (scaleDown x (-exponent).toNat)
  else if 308 < exponent then (if significand = 0 then some x else none)
  else
    let y := x * Decimal.Binary64.ofScientific false 1 exponent
    if y.isFinite then some y else none

/-- The numeral as a double, unless that overflows. -/
def double? (l : Numeral) : Option Float :=
  let (n, more) := packDigits 0 l.whole
  let (n, dropped) := packDigits n l.fraction
  let exponent : Int := match l.exponent with
    | none => 0
    | some (false, ds) => natOfDigits ds
    | some (true, ds) => -natOfDigits ds
  let shift : Int := more.length - (l.fraction.length - dropped.length : Nat)
  (scale? n (exponent + shift)).map fun x => if l.negative then -x else x

/-- The number that a numeral stands for, unless it is out of range. -/
def number? (l : Numeral) : Option Number :=
  let n := natOfDigits l.whole
  if l.fraction.isEmpty && l.exponent.isNone then
    if !l.negative && n < Nat.pow 2 64 then some (.whole n)
    else if l.negative && 0 < n && n ≤ Nat.pow 2 63 then some (.whole (-n))
    else l.double?.map .double
  else l.double?.map .double

end Numeral

end RamlSchema.Json
