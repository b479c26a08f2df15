/-
RamlSchema/Yaml/FlowScalar.lean

Scalars that run over lines: plain ones and those between quotes.

Such a scalar is made of runs of characters with gaps between them.  A gap
within a line stands for itself.  A gap with a single line break is a space,
and of several breaks all but the first are kept.  (A first break that is a
Unicode separator is kept as well.)  In double quotes a break behind a
backslash is dropped.

Each scanner is a loop over runs; `bound` is the number of runs that the rest
of the text can have.
-/
import RamlSchema.Text.Hex
import RamlSchema.Yaml.Cursor

namespace RamlSchema.Yaml

/-! ### Gaps -/

/-- What stands for a gap with a first break and further ones. -/
def foldBreaks (first : Char) (more : List Char) : List Char :=
  if first = '\n' then (if more.isEmpty then [' '] else more) else first :: more

/-- The further breaks of a gap, whose lines hold nothing but whites.  Fails on
a tab before column `margin`. -/
def spanBreaks? (margin : Nat) : Nat → Cursor → Option (List Char × Cursor)
  | 0, c => some ([], c)
  | bound + 1, c =>
    let whites := c.rest.takeWhile isWhite
    if (whites.take (margin - c.column)).contains '\t' then none
    else
      let c := c.skip whites.length
      match c.break? with
      | some (b, c) => (spanBreaks? margin bound c).map fun (bs, c) => (b :: bs, c)
      | none => some ([], c)

/-- The gap that stands next: what it stands for, and whether it has a break. -/
def spanGap? (margin : Nat) (c : Cursor) : Option ((List Char × Bool) × Cursor) :=
  let (whites, c) := c.spanWhile isWhite
  match c.break? with
  | none => some ((whites, false), c)
  | some (b, c) =>
    (spanBreaks? margin c.rest.length c).map fun (bs, c) => ((foldBreaks b bs, true), c)

/-! ### Plain scalars -/

/-- The run of a plain scalar at the start of a text.  It ends at a gap, at a
colon before one, and within brackets at the characters that structure them;
a colon before one of those is refused there. -/
def plainRun? (inFlow : Bool) : List Char → Option (List Char)
  | [] => some []
  | c :: cs =>
    if isWhite c || isBreak c then some []
    else if c = ':' && inFlow && (cs.take 1).any (",?[]\x7b\x7d".toList.contains ·) then none
    else if c = ':' && atGap cs then some []
    else if inFlow && ",[]\x7b\x7d".toList.contains c then some []
    else (plainRun? inFlow cs).map (c :: ·)

/-- The text of a plain scalar, and whether a line break follows it.  Within
brackets layout does not count; outside, a line before column `margin` does not
belong to the scalar.  `gap` is what the gap before the next run stands for. -/
def plainRuns? (inFlow : Bool) (margin : Nat) :
    Nat → List Char × Bool → Cursor → Option ((List Char × Bool) × Cursor)
  | 0, _, _ => none
  | bound + 1, (gap, broken), c =>
    if c.atMarker || c.rest.head? = some '#' then some (([], broken), c)
    else do
      let run ← plainRun? inFlow c.rest
      if run.isEmpty then some (([], broken), c)
      else
        let c := c.skip run.length
        if c.rest.isEmpty || !atGap c.rest then some ((gap ++ run, false), c)
        else
          let ((gap', broken'), c) ← spanGap? margin c
          if !inFlow && c.column < margin then some ((gap ++ run, broken'), c)
          else
            let ((more, broken''), c) ← plainRuns? inFlow margin bound (gap', broken') c
            some ((gap ++ run ++ more, broken''), c)

/-- The plain scalar that begins here. -/
def plain? (inFlow : Bool) (margin : Nat) (c : Cursor) : Option ((List Char × Bool) × Cursor) :=
  plainRuns? inFlow margin (c.rest.length + 1) ([], false) c

/-! ### Quoted scalars -/

/-- A quote character as a mark of style. -/
inductive Quote where
  | single
  | double
deriving DecidableEq, Repr

/-- The character of a quote. -/
def Quote.char : Quote → Char
  | .single => '\x27'
  | .double => '\x22'

/-- The character that a number stands for, if it is one. -/
def charOfCode? (n : Nat) : Option Char :=
  if n.isValidChar then some (Char.ofNat n) else none

/-- The character that a letter behind a backslash stands for. -/
def unescape? (c : Char) : Option Char :=
  match c with
  | '0' => some '\x00'
  | 'a' => some '\x07'
  | 'b' => some '\x08'
  | 't' => some '\t'
  | '\t' => some '\t'
  | 'n' => some '\n'
  | 'v' => some '\x0b'
  | 'f' => some '\x0c'
  | 'r' => some '\r'
  | 'e' => some '\x1b'
  | ' ' => some ' '
  | '\x22' => some '\x22'
  | '/' => some '/'
  | '\\' => some '\\'
  | 'N' => some '\u0085'
  | '_' => some '\u00a0'
  | 'L' => some '\u2028'
  | 'P' => some '\u2029'
  | _ => none

/-- The number of hexadecimal digits that a letter behind a backslash asks
for. -/
def codeLength? (c : Char) : Option Nat :=
  match c with
  | 'x' => some 2
  | 'u' => some 4
  | 'U' => some 8
  | _ => none

/-- The escape sequence behind a backslash: its character and its length. -/
def escape? (cs : List Char) : Option (Char × Nat) :=
  match cs with
  | [] => none
  | c :: r =>
    match codeLength? c with
    | some n =>
      let ds := r.take n
      if ds.length < n then none
      else (Text.hexNumber? 0 ds >>= charOfCode?).map fun x => (x, n + 1)
    | none => (unescape? c).map fun x => (x, 1)

/-- The run of a quoted scalar at the start of a text, with the number of
characters that it takes up.  It ends at a gap, at the closing quote and at an
escaped break. -/
def quotedRun? (q : Quote) : Nat → List Char → Option (List Char × Nat)
  | 0, _ => none
  | bound + 1, cs =>
    match cs with
    | [] => some ([], 0)
    | c :: r =>
      let further (x : Char) (n : Nat) : Option (List Char × Nat) :=
        (quotedRun? q bound (cs.drop n)).map fun (t, m) => (x :: t, n + m)
      if isWhite c || isBreak c then some ([], 0)
      else if c = q.char then
        if q = .single && r.head? = some c then further c 2 else some ([], 0)
      else if q = .double && c = '\\' then
        if r.head?.any isBreak then some ([], 0)
        else do
          let (x, n) ← escape? r
          further x (n + 1)
      else further c 1

/-- The text of a quoted scalar from here up to its closing quote, which is
passed over. -/
def quotedRuns? (q : Quote) : Nat → Cursor → Option (List Char × Cursor)
  | 0, _ => none
  | bound + 1, c =>
    if c.atMarker || c.rest.isEmpty then none
    else do
      let (run, n) ← quotedRun? q (c.rest.length + 1) c.rest
      let c := c.skip n
      let escaped := c.rest.head? = some '\\'
      let c := if escaped then (((c.skip 1).break?).map (·.2)).getD c else c
      if c.rest.head? = some q.char then some (run, c.skip 1)
      else
        let (gap, c) ←
          if escaped then spanBreaks? 0 c.rest.length c
          else (spanGap? 0 c).map fun ((gap, _), c) => (gap, c)
        let (more, c) ← quotedRuns? q bound c
        some (run ++ gap ++ more, c)

/-- The scalar between quotes that begins here. -/
def quoted? (q : Quote) (c : Cursor) : Option (List Char × Cursor) :=
  quotedRuns? q (c.rest.length + 1) (c.skip 1)

end RamlSchema.Yaml
