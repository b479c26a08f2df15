/-
RamlSchema/Yaml/Cursor.lean

A place in a YAML text.

Layout decides what a YAML text means, so the place is kept as the line and
column it is on, beside the text that is left.  Five line breaks are known; a
carriage return with a line feed is one.  The two Unicode separators are kept
as they are when a break becomes part of a scalar, and the other breaks become
line feeds.
-/

namespace RamlSchema.Yaml

/-! ### Character classes -/

/-- A line break. -/
def isBreak (c : Char) : Bool :=
  c = '\n' || c = '\r' || c = '\u0085' || c = '\u2028' || c = '\u2029'

/-- A space or a tab. -/
def isWhite (c : Char) : Bool :=
  c = ' ' || c = '\t'

/-- A character of the names of anchors, handles and directives. -/
def isWordChar (c : Char) : Bool :=
  c.isAlphanum || c = '_' || c = '-'

/-- A character that a YAML text may hold at all. -/
def isPrintable (c : Char) : Bool :=
  c = '\t' || c = '\n' || c = '\r' || (' ' ≤ c && c ≤ '~') || c = '\u0085'
    || ('\u00a0' ≤ c && c ≤ '\ufffd') || 0x10000 ≤ c.toNat

/-- Whether a text begins with a white, a break or its end. -/
def atGap : List Char → Bool
  | [] => true
  | c :: _ => isWhite c || isBreak c

/-! ### Cursors -/

/-- The number of bytes that characters take up in UTF-8. -/
def byteLength (cs : List Char) : Nat :=
  cs.foldl (fun n c => n + c.utf8Size) 0

/-- A place in a text: what is left of it, how many bytes lie behind, and the
line and column. -/
structure Cursor where
  rest : List Char
  index : Nat := 0
  line : Nat := 0
  column : Nat := 0

namespace Cursor

/-- Moves over characters of the same line. -/
def skip (c : Cursor) (n : Nat) : Cursor :=
  { c with
    rest := c.rest.drop n
    index := c.index + byteLength (c.rest.take n)
    column := c.column + n }

/-- The characters with a property that stand next, all on the same line. -/
def spanWhile (c : Cursor) (p : Char → Bool) : List Char × Cursor :=
  let taken := c.rest.takeWhile p
  (taken, c.skip taken.length)

/-- Moves over the characters with a property. -/
def skipWhile (c : Cursor) (p : Char → Bool) : Cursor :=
  (c.spanWhile p).2

/-- The start of the next line, `n` characters on. -/
def nextLine (c : Cursor) (n : Nat) : Cursor where
  rest := c.rest.drop n
  index := c.index + byteLength (c.rest.take n)
  line := c.line + 1
  column := 0

/-- The line break that stands next, as a scalar keeps it. -/
def break? (c : Cursor) : Option (Char × Cursor) :=
  match c.rest with
  | '\r' :: '\n' :: _ => some ('\n', c.nextLine 2)
  | '\u2028' :: _ => some ('\u2028', c.nextLine 1)
  | '\u2029' :: _ => some ('\u2029', c.nextLine 1)
  | b :: _ => if isBreak b then some ('\n', c.nextLine 1) else none
  | [] => none

/-- Whether a document marker stands next: three dashes or points at the start
of a line, with a gap behind them. -/
def atMarker (c : Cursor) : Bool :=
  c.column = 0 &&
    match c.rest with
    | '-' :: '-' :: '-' :: r => atGap r
    | '.' :: '.' :: '.' :: r => atGap r
    | _ => false

/-- Moves over a comment, if one begins here, up to the end of the line. -/
def skipComment (c : Cursor) : Cursor :=
  match c.rest with
  | '#' :: _ => c.skipWhile (!isBreak ·)
  | _ => c

/-- Moves over whites and a comment to the next line, or fails if anything
else stands before it. -/
def skipRestOfLine? (c : Cursor) : Option Cursor :=
  let c := (c.skipWhile isWhite).skipComment
  match c.break? with
  | some (_, c) => some c
  | none => if c.rest.isEmpty then some c else none

end Cursor

end RamlSchema.Yaml
