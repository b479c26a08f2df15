/-
RamlSchema/Json/Writer.lean

JSON values as text, on one line without spaces or spread out.

A string escapes the quote, the backslash and the characters below U+0020, the
five common ones by a letter and the others by four lower-case hexadecimal
digits; every other character stands for itself.  Whole numbers are decimal.
Doubles have the fewest digits that read back, with the point in its place
from 10⁻⁵ up to 10¹⁵ and in scientific notation with a signed exponent
elsewhere; JSON has no word for an infinity or for a number that is none, so
these are `null`.

The spread-out form puts each item and member on a line of its own, two spaces
further in than its container, and keeps an empty container on one line.
-/
import RamlSchema.Decimal.Layout
import RamlSchema.Json.Basic

namespace RamlSchema.Json

open Decimal

/-! ### Leaves -/

/-- How a document writes a double. -/
def doubleLayout : Layout where
  leastPositional := -5
  greatestPositional := 15
  signedExponent := true

/-- A lower-case hexadecimal digit. -/
def hexDigit (n : Nat) : Char :=
  Nat.digitChar (n % 16)

/-- A character as it stands inside a string. -/
def escapeChar (c : Char) : List Char :=
  if c = '\x22' then ['\\', '\x22']
  else if c = '\\' then ['\\', '\\']
  else if c = '\x08' then ['\\', 'b']
  else if c = '\x0c' then ['\\', 'f']
  else if c = '\n' then ['\\', 'n']
  else if c = '\r' then ['\\', 'r']
  else if c = '\t' then ['\\', 't']
  else if c < ' ' then ['\\', 'u', '0', '0', hexDigit (c.toNat / 16), hexDigit c.toNat]
  else [c]

/-- A string between quotes. -/
def renderString (s : String) : List Char :=
  '\x22' :: s.toList.flatMap escapeChar ++ ['\x22']

/-- A whole number in decimal. -/
def renderWhole : Int → List Char
  | .ofNat n => digits n
  | .negSucc n => '-' :: digits (n + 1)

/-- A number, or `null` for a double that is not finite. -/
def renderNumber : Number → List Char
  | .whole n => renderWhole n
  | .double x => if x.isFinite then doubleLayout.render x else "null".toList

/-! ### On one line -/

/-- Texts with commas between them. -/
def commaSeparated : List (List Char) → List Char
  | [] => []
  | [t] => t
  | t :: ts => t ++ ',' :: commaSeparated ts

mutual

/-- The characters of a value on one line. -/
def render : Json → List Char
  | .null => "null".toList
  | .bool true => "true".toList
  | .bool false => "false".toList
  | .num n => renderNumber n
  | .str s => renderString s
  | .arr xs => '[' :: commaSeparated (renderItems xs) ++ [']']
  | .obj ms => '\x7b' :: commaSeparated (renderMembers ms) ++ ['\x7d']

/-- The texts of items. -/
def renderItems : List Json → List (List Char)
  | [] => []
  | x :: xs => x.render :: renderItems xs

/-- The texts of members, key and value with a colon between them. -/
def renderMembers : List (String × Json) → List (List Char)
  | [] => []
  | (k, v) :: ms => (renderString k ++ ':' :: v.render) :: renderMembers ms

end

/-- The text of a value on one line. -/
def text (j : Json) : String :=
  String.ofList j.render

/-! ### Spread out -/

/-- The start of a line at a depth. -/
def lineStart (depth : Nat) : List Char :=
  '\n' :: List.replicate (2 * depth) ' '

/-- A container whose parts stand on lines of their own at `depth + 1`. -/
def bracketed (opening closing : Char) (depth : Nat) (parts : List (List Char)) : List Char :=
  if parts.isEmpty then [opening, closing]
  else opening :: commaSeparated (parts.map (lineStart (depth + 1) ++ ·))
    ++ lineStart depth ++ [closing]

mutual

/-- The characters of a value that stands at a depth, spread out. -/
def renderPretty (depth : Nat) : Json → List Char
  | .arr xs => bracketed '[' ']' depth (renderPrettyItems (depth + 1) xs)
  | .obj ms => bracketed '\x7b' '\x7d' depth (renderPrettyMembers (depth + 1) ms)
  | j => j.render

/-- The texts of items at a depth, spread out. -/
def renderPrettyItems (depth : Nat) : List Json → List (List Char)
  | [] => []
  | x :: xs => x.renderPretty depth :: renderPrettyItems depth xs

/-- The texts of members at a depth, spread out. -/
def renderPrettyMembers (depth : Nat) : List (String × Json) → List (List Char)
  | [] => []
  | (k, v) :: ms =>
    (renderString k ++ ':' :: ' ' :: v.renderPretty depth) :: renderPrettyMembers depth ms

end

/-- The text of a value, spread out. -/
def prettyText (j : Json) : String :=
  String.ofList (j.renderPretty 0)

end RamlSchema.Json
