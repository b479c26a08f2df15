/-
RamlSchema/Yaml/Scalar.lean

What scalars stand for.

A plain scalar is nothing, a truth value or a number if it is one of their
words, and a string otherwise.  Whole numbers are decimal, or hexadecimal, octal
or binary behind `0x`, `0o` and `0b`; below 2⁶⁴, and not under -2⁶³.  Numbers
beyond these that fit 128 bits are refused, and larger ones are doubles.  A
leading zero before nothing but digits makes a string of them.  A double is
finite, or one of the words for infinity and for a number that is none.
-/
import RamlSchema.Decimal.Binary64
import RamlSchema.Text.Hex
import RamlSchema.Yaml.Tag
import RamlSchema.Yaml.Value

namespace RamlSchema.Yaml

/-! ### Words -/

/-- The words for nothing. -/
def isNullWord (cs : List Char) : Bool :=
  ["~", "null", "Null", "NULL"].contains (String.ofList cs)

/-- The truth value that a word stands for. -/
def boolWord? (cs : List Char) : Option Bool :=
  if ["true", "True", "TRUE"].contains (String.ofList cs) then some true
  else if ["false", "False", "FALSE"].contains (String.ofList cs) then some false
  else none

/-! ### Whole numbers -/

/-- The number that digits to a base of at most sixteen stand for. -/
def natOfBase? (base : Nat) (cs : List Char) : Option Nat :=
  if cs.isEmpty then none
  else cs.foldlM (fun n c => do
    let d ← Text.hexValue? c
    if d < base then some (base * n + d) else none) 0

/-- Whether the text has a leading zero before nothing but digits. -/
def isPaddedNumber (cs : List Char) : Bool :=
  match cs with
  | '0' :: c :: r => (c :: r).all Char.isDigit
  | _ => false

/-- The magnitude of a whole number without a sign. -/
def magnitude? (cs : List Char) : Option Nat :=
  let based (base : Nat) (r : List Char) : Option Nat := natOfBase? base r
  match cs with
  | '0' :: 'x' :: r => based 16 r
  | '0' :: 'o' :: r => based 8 r
  | '0' :: 'b' :: r => based 2 r
  | _ => if isPaddedNumber cs then none else natOfBase? 10 cs

/-- What is said of a text that may be a whole number. -/
inductive WholeReading where
  | whole (n : Int)
  /-- It is one, but of more than sixty-four bits. -/
  | tooWide
  /-- It is none, or one of more than 128 bits. -/
  | notWhole

/-- Reads a whole number. -/
def readWhole (cs : List Char) : WholeReading :=
  match cs with
  | '-' :: r =>
    match magnitude? r with
    | some n =>
      if n ≤ Nat.pow 2 63 then .whole (-n)
      else if n ≤ Nat.pow 2 127 then .tooWide
      else .notWhole
    | none => .notWhole
  | _ =>
    match magnitude? (match cs with
      | '+' :: r => r
      | _ => cs) with
    | some n =>
      if n < Nat.pow 2 64 then .whole n
      else if n < Nat.pow 2 128 then .tooWide
      else .notWhole
    | none => .notWhole

/-! ### Doubles -/

/-- The double that a decimal without a sign stands for: digits with at most
one point, and at least one digit before the exponent. -/
def decimal? (negative : Bool) (cs : List Char) : Option Float :=
  let whole := cs.takeWhile Char.isDigit
  let cs := cs.dropWhile Char.isDigit
  let (fraction, cs) := match cs with
    | '.' :: r => (r.takeWhile Char.isDigit, r.dropWhile Char.isDigit)
    | _ => ([], cs)
  let exponent? : Option Int := match cs with
    | [] => some 0
    | c :: r =>
      if c = 'e' || c = 'E' then
        match r with
        | '-' :: r => (natOfBase? 10 r).map fun n => -(n : Int)
        | '+' :: r => (natOfBase? 10 r).map fun n => (n : Int)
        | r => (natOfBase? 10 r).map fun n => (n : Int)
      else none
  match exponent?, natOfBase? 10 (whole ++ fraction) with
  | some e, some n => some (Decimal.Binary64.ofScientific negative n (e - fraction.length))
  | _, _ => none

/-- The double that a text stands for. -/
def double? (cs : List Char) : Option Float :=
  let (sign, r) : Option Bool × List Char := match cs with
    | '+' :: r => (some false, r)
    | '-' :: r => (some true, r)
    | _ => (none, cs)
  let infinity := ['.', 'i', 'n', 'f']
  if [infinity, ".Inf".toList, ".INF".toList].contains r then
    some (if sign = some true then -1.0 / 0.0 else 1.0 / 0.0)
  else if sign.isNone && [".nan".toList, ".NaN".toList, ".NAN".toList].contains r then
    some (0.0 / 0.0)
  else
    match decimal? (sign = some true) r with
    | some x => if x.isFinite then some x else none
    | none => none

/-! ### Scalars -/

/-- What a plain scalar without a tag stands for. -/
def plainValue? (cs : List Char) : Option Value :=
  if cs.isEmpty || isNullWord cs then some .null
  else
    match boolWord? cs with
    | some b => some (.bool b)
    | none =>
      match readWhole cs with
      | .whole n => some (.num (.whole n))
      | .tooWide => none
      | .notWhole =>
        let unsigned := match cs with
          | '+' :: r => r
          | '-' :: r => r
          | _ => cs
        match if isPaddedNumber unsigned then none else double? cs with
        | some x => some (.num (.double x))
        | none => some (.str (String.ofList cs))

/-- What a scalar stands for that has no tag, or none that says how to read
it. -/
def untaggedValue? (plain : Bool) (cs : List Char) : Option Value :=
  if plain then plainValue? cs else some (.str (String.ofList cs))

/-- What a scalar with a tag stands for. -/
def scalarValue? (tag : Option Tag) (plain : Bool) (cs : List Char) : Option Value :=
  match tag with
  | none => untaggedValue? plain cs
  | some .other => some (.str (String.ofList cs))
  | some .null => if isNullWord cs then some .null else none
  | some .bool => (boolWord? cs).map .bool
  | some .int =>
    match readWhole cs with
    | .whole n => some (.num (.whole n))
    | _ => none
  | some .float => (double? cs).map fun x => .num (.double x)
  | some (.named (some name)) => (untaggedValue? plain cs).map (.tagged name)
  | some (.named none) => untaggedValue? plain cs

end RamlSchema.Yaml
