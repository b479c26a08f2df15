/-
RamlSchema/Yaml/BlockScalar.lean

Scalars that are set apart by their indentation, literal and folded.

A header gives the style, and it may give the indentation and what becomes of
the line breaks at the end.  Without the former the first line that is not
empty decides, or a longer one of only spaces before it.  In the folded style a
single break between two lines that do not begin with a white is a space.
-/
import RamlSchema.Yaml.Cursor

namespace RamlSchema.Yaml

/-- The styles of block scalars. -/
inductive BlockStyle where
  | literal
  | folded
deriving DecidableEq, Repr

/-- What becomes of the line breaks at the end of a block scalar. -/
inductive Chomping where
  /-- None is kept. -/
  | strip
  /-- One is kept. -/
  | clip
  /-- All are kept. -/
  | keep
deriving DecidableEq, Repr

/-! ### Header -/

/-- The chomping indicator that stands next, if one does. -/
def chomping? (c : Cursor) : Option Chomping × Cursor :=
  match c.rest with
  | '+' :: _ => (some .keep, c.skip 1)
  | '-' :: _ => (some .strip, c.skip 1)
  | _ => (none, c)

/-- The indentation indicator that stands next, or zero.  It must not be zero
itself. -/
def indentation? (c : Cursor) : Option (Nat × Cursor) :=
  match c.rest with
  | d :: _ =>
    if d = '0' then none
    else if d.isDigit then some (d.toNat - '0'.toNat, c.skip 1)
    else some (0, c)
  | [] => some (0, c)

/-- The header from behind the style indicator, up to the next line.  The two
indicators may stand in either order. -/
def blockHeader? (c : Cursor) : Option ((Chomping × Nat) × Cursor) := do
  let (chomping, c) := chomping? c
  let (indentation, c) ← indentation? c
  let (chomping, c) :=
    if chomping.isNone && indentation ≠ 0 then chomping? c else (chomping, c)
  let c ← c.skipRestOfLine?
  return ((chomping.getD .clip, indentation), c)

/-! ### Lines -/

/-- The empty lines that stand next, as breaks, and the greatest column that
their spaces reach, the line behind them included.  Spaces are taken up to
column `indent` if it is given; a tab before it is refused. -/
def emptyLines? (indent : Option Nat) :
    Nat → Nat → Cursor → Option ((List Char × Nat) × Cursor)
  | 0, _, _ => none
  | bound + 1, reached, c =>
    let spaces := c.rest.takeWhile (· = ' ')
    let n := match indent with
      | some i => min spaces.length (i - c.column)
      | none => spaces.length
    let c := c.skip n
    let reached := max reached c.column
    if c.rest.head? = some '\t' && indent.all (c.column < ·) then none
    else
      match c.break? with
      | some (b, c) =>
        (emptyLines? indent bound reached c).map fun ((bs, reached), c) => ((b :: bs, reached), c)
      | none => some (([], reached), c)

/-- Lines at column `indent`, with what stands for the breaks between them.
`pending` are the breaks before the next line: the one that ended the line
before, and those of empty lines.  Answers the breaks behind the last line
too. -/
def blockLines? (style : BlockStyle) (indent : Nat) :
    Nat → List Char × List Char → Bool → Cursor →
    Option ((List Char × (List Char × List Char)) × Cursor)
  | 0, _, _, _ => none
  | bound + 1, (ended, empty), leadingWhite, c =>
    if c.column ≠ indent || c.rest.isEmpty then some (([], (ended, empty)), c)
    else do
      let white := c.rest.head?.any isWhite
      let joint :=
        if style = .folded && ended.head? = some '\n' && !leadingWhite && !white then
          (if empty.isEmpty then [' '] else empty)
        else ended ++ empty
      let (line, c) := c.spanWhile (!isBreak ·)
      let (ended, c) := match c.break? with
        | some (b, c) => ([b], c)
        | none => ([], c)
      let ((empty, _), c) ← emptyLines? (some indent) (c.rest.length + 1) 0 c
      let ((more, last), c) ← blockLines? style indent bound (ended, empty) white c
      return ((joint ++ line ++ more, last), c)

/-- The block scalar whose style indicator stands next.  `parent` is the column
of the collection around it, or -1. -/
def blockScalar? (style : BlockStyle) (parent : Int) (c : Cursor) :
    Option (List Char × Cursor) := do
  let ((chomping, indentation), c) ← blockHeader? (c.skip 1)
  let given := if indentation = 0 then none else some ((max parent 0).toNat + indentation)
  let ((empty, reached), c) ← emptyLines? given (c.rest.length + 1) 0 c
  let indent := given.getD (max reached (max (parent + 1).toNat 1))
  let ((text, (ended, trailing)), c) ←
    blockLines? style indent (c.rest.length + 1) ([], empty) false c
  let tail := match chomping with
    | .strip => []
    | .clip => ended
    | .keep => ended ++ trailing
  return (text ++ tail, c)

end RamlSchema.Yaml
