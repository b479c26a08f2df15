/-
RamlSchema/TypeExpr.lean

Type expressions: what the `type` facet of a declaration says.

There are three notations.  `A | B` is a union, `E[]` an array with elements
`E`, and everything else names a type.  A bar binds looser than the brackets of
an array, and parentheses keep a bar from splitting; an unmatched closing
parenthesis is ignored.  Blanks in a union do not count.  The element of an
array is trimmed and loses one pair of parentheses around it, unless that
encloses a union.  Members of a union are left as they are written.
-/
import RamlSchema.Json.Basic
import RamlSchema.Text.Blank

namespace RamlSchema

/-- A type expression. -/
inductive TypeExpr where
  | named (name : String)
  | arrayOf (element : String)
  | union (members : List String)
deriving DecidableEq, Repr

namespace TypeExpr

/-! ### Splitting at bars -/

/-- The depth of parentheses behind a character. -/
def depthAfter (depth : Nat) (c : Char) : Nat :=
  if c = '(' then depth + 1 else if c = ')' then depth - 1 else depth

/-- The stretches between the bars that stand outside parentheses: the first
one, and those behind it.  `depth` parentheses are open. -/
def splitBars (depth : Nat) : List Char → List Char × List (List Char)
  | [] => ([], [])
  | c :: cs =>
    if c = '|' ∧ depth = 0 then
      let (m, ms) := splitBars 0 cs
      ([], m :: ms)
    else
      let (m, ms) := splitBars (depthAfter depth c) cs
      (c :: m, ms)

/-! ### Arrays -/

/-- The characters before a pair of brackets at the end. -/
def arrayElement? (cs : List Char) : Option (List Char) :=
  match cs.reverse with
  | ']' :: '[' :: r => some r.reverse
  | _ => none

/-- The characters between an opening parenthesis at the start and a closing
one at the end. -/
def group? (cs : List Char) : Option (List Char) :=
  match cs with
  | '(' :: r =>
    match r.reverse with
    | ')' :: r' => some r'.reverse
    | _ => none
  | _ => none

/-- Takes a pair of parentheses off, unless it encloses a bar. -/
def stripGroup (cs : List Char) : List Char :=
  match group? cs with
  | some inner => if '|' ∈ inner then cs else Text.trimChars inner
  | none => cs

/-- Whether a text has a bar anywhere, so that it cannot be an element. -/
def hasBar (s : String) : Bool :=
  s.toList.contains '|'

/-- Whether a text ends in the brackets of an array. -/
def endsInBrackets (s : String) : Bool :=
  (arrayElement? s.toList).isSome

/-! ### Reading -/

/-- The expression that a trimmed text stands for, or `none` for a union with
a blank member. -/
def parse? (text : String) : Option TypeExpr :=
  let cs := text.toList
  match splitBars 0 cs with
  | (m, m' :: ms) =>
    let members := (m :: m' :: ms).map Text.stripChars
    if members.any List.isEmpty then none else some (.union (members.map String.ofList))
  | (_, []) =>
    match arrayElement? cs with
    | some element => some (.arrayOf (String.ofList (stripGroup (Text.trimChars element))))
    | none => some (.named text)

end TypeExpr

end RamlSchema
