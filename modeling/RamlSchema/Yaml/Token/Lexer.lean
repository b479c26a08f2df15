/-
RamlSchema/Yaml/Token/Lexer.lean

From a YAML text to its tokens.

Outside brackets the column of a token decides which collections it belongs
to.  A column beyond the current one starts a collection, and the collections
that a token stands to the left of end before it.  Inside brackets columns do
not count.

Any token that could be a key without a mark of its own is remembered, one for
each level of brackets.  If a colon follows on the same line, and no further
than 1024 bytes on, a key token is put before it, and before that the
start of a mapping where one is due.  A candidate that stands at the column of
the current mapping can be nothing but a key, so it is an error if no colon
comes.

`Lexer.next?` adds at least one token and moves on, or the text is at its end;
so the number of steps is bounded by the length of the text.
-/
import RamlSchema.Yaml.BlockScalar
import RamlSchema.Yaml.FlowScalar
import RamlSchema.Yaml.Token.Basic

namespace RamlSchema.Yaml

/-- A token that may turn out to be a key. -/
structure KeyCandidate where
  /-- The number of tokens before it. -/
  position : Nat
  index : Nat
  line : Nat
  column : Nat
  /-- Whether it cannot be anything else. -/
  required : Bool

/-- The state of reading tokens. -/
structure Lexer where
  cursor : Cursor
  /-- The tokens so far, the last one first. -/
  tokens : List Token := []
  /-- The column of the current collection, or -1. -/
  indent : Int := -1
  /-- The columns of the collections around it. -/
  outerIndents : List Int := []
  /-- The candidate at the current level of brackets. -/
  candidate : Option KeyCandidate := none
  /-- The candidates at the levels around it. -/
  outerCandidates : List (Option KeyCandidate) := []
  /-- Whether the next token may be a key without a mark. -/
  keyAllowed : Bool := true

namespace Lexer

/-- Whether the place is inside brackets. -/
def inFlow (l : Lexer) : Bool :=
  !l.outerCandidates.isEmpty

/-- Adds a token. -/
def push (l : Lexer) (t : Token) : Lexer :=
  { l with tokens := t :: l.tokens }

/-- Adds a token that takes up characters of the line. -/
def take (l : Lexer) (t : Token) (n : Nat) : Lexer :=
  { l.push t with cursor := l.cursor.skip n }

/-- Adds a token so that `position` tokens stand before it. -/
def insertAt (l : Lexer) (position : Nat) (t : Token) : Lexer :=
  let behind := l.tokens.length - position
  { l with tokens := l.tokens.take behind ++ t :: l.tokens.drop behind }

/-! ### Candidates for keys -/

/-- Whether a candidate has come too far from its colon to be a key. -/
def isStale (c : Cursor) (k : KeyCandidate) : Bool :=
  k.line < c.line || k.index + 1024 < c.index

/-- Drops a candidate that is stale, or fails if it has to be a key. -/
def dropStale? (c : Cursor) : Option KeyCandidate → Option (Option KeyCandidate)
  | none => some none
  | some k =>
    if isStale c k then (if k.required then none else some none) else some (some k)

/-- Drops the stale candidates of all levels. -/
def dropAllStale? (l : Lexer) : Option Lexer := do
  let candidate ← dropStale? l.cursor l.candidate
  let outerCandidates ← l.outerCandidates.mapM (dropStale? l.cursor)
  return { l with candidate, outerCandidates }

/-- Drops the candidate of the current level, or fails if it has to be a key. -/
def dropCandidate? (l : Lexer) : Option Lexer :=
  if l.candidate.any (·.required) then none else some { l with candidate := none }

/-- Makes the next token a candidate, where one may stand. -/
def noteCandidate? (l : Lexer) : Option Lexer :=
  if l.keyAllowed then do
    let l ← l.dropCandidate?
    let c := l.cursor
    return { l with candidate := some {
      position := l.tokens.length
      index := c.index
      line := c.line
      column := c.column
      required := !l.inFlow && l.indent = c.column } }
  else some l

/-- Sets whether the next token may be a key without a mark. -/
def allowKey (l : Lexer) (b : Bool) : Lexer :=
  { l with keyAllowed := b }

/-! ### Indentation -/

/-- Ends the collections that a column lies to the left of. -/
def unroll (l : Lexer) (column : Int) : Lexer :=
  if l.inFlow then l else go l l.outerIndents
where
  /-- Ends collections; `outer` are the columns around the current one. -/
  go (l : Lexer) : List Int → Lexer
    | [] =>
      if column < l.indent then { l.push .blockEnd with indent := -1, outerIndents := [] } else l
    | i :: outer =>
      if column < l.indent then
        go { l.push .blockEnd with indent := i, outerIndents := outer } outer
      else l

/-- Starts a collection where the column lies beyond the current one; its token
gets `position` tokens before it. -/
def roll (l : Lexer) (column : Nat) (position : Nat) (start : Token) : Lexer :=
  if !l.inFlow && l.indent < column then
    { l.insertAt position start with
      indent := column
      outerIndents := l.indent :: l.outerIndents }
  else l

/-! ### Blanks between tokens -/

/-- Moves to the next token over whites, comments and line breaks.  A tab
counts as a white only where no key may stand. -/
def skipBlanks (l : Lexer) : Nat → Lexer
  | 0 => l
  | bound + 1 =>
    let c := l.cursor
    let c := if c.column = 0 && c.rest.head? = some '\ufeff' then c.skip 1 else c
    let tabs := l.inFlow || !l.keyAllowed
    let c := (c.skipWhile fun x => x = ' ' || (tabs && x = '\t')).skipComment
    match c.break? with
    | some (_, c) =>
      skipBlanks { l with cursor := c, keyAllowed := l.keyAllowed || !l.inFlow } bound
    | none => { l with cursor := c }

/-! ### Directives -/

/-- The number of a version, of at most nine digits. -/
def versionNumber? (c : Cursor) : Option (Nat × Cursor) :=
  let (ds, c) := c.spanWhile Char.isDigit
  if ds.isEmpty || 9 < ds.length then none
  else some (ds.foldl (fun n d => 10 * n + (d.toNat - '0'.toNat)) 0, c)

/-- The directive whose percent sign stands next. -/
def directive? (c : Cursor) : Option (Token × Cursor) := do
  let (name, c) := (c.skip 1).spanWhile isWordChar
  if !atGap c.rest then none
  else if name = "YAML".toList then
    let (major, c) ← versionNumber? (c.skipWhile isWhite)
    if c.rest.head? ≠ some '.' then none
    else
      let (minor, c) ← versionNumber? (c.skip 1)
      return (.version major minor, ← c.skipRestOfLine?)
  else if name = "TAG".toList then
    let (word, c) ← handle? (c.skipWhile isWhite)
    if !(isNamedHandle word || word = ['!']) || !c.rest.head?.any isWhite then none
    else
      let (start, c) ← tagChars? true (c.skipWhile isWhite)
      if start.isEmpty || !atGap c.rest then none
      else return (.handle word (beforeZero start), ← c.skipRestOfLine?)
  else none

/-! ### Tokens -/

/-- Adds a token at the left margin, which ends all collections. -/
def marginal? (l : Lexer) : Option Lexer := do
  let l ← (l.unroll (-1)).dropCandidate?
  return l.allowKey false

/-- A bracket that opens a collection. -/
def openFlow? (l : Lexer) (t : Token) : Option Lexer := do
  let l ← l.noteCandidate?
  let l := { l with candidate := none, outerCandidates := l.candidate :: l.outerCandidates }
  return (l.allowKey true).take t 1

/-- A bracket that closes a collection. -/
def closeFlow? (l : Lexer) (t : Token) : Option Lexer := do
  let l ← l.dropCandidate?
  let l := match l.outerCandidates with
    | [] => l
    | k :: ks => { l with candidate := k, outerCandidates := ks }
  return (l.allowKey false).take t 1

/-- A comma between items in brackets. -/
def flowEntry? (l : Lexer) : Option Lexer := do
  let l ← l.dropCandidate?
  return (l.allowKey true).take .flowEntry 1

/-- A mark that stands only where a key could, outside brackets, and that
starts a collection at its column. -/
def marked? (l : Lexer) (start t : Token) (allow : Bool) : Option Lexer := do
  if !l.inFlow && !l.keyAllowed then none
  else
    let l := l.roll l.cursor.column l.tokens.length start
    let l ← l.dropCandidate?
    return (l.allowKey allow).take t 1

/-- The colon before a value. -/
def value? (l : Lexer) : Option Lexer :=
  match l.candidate with
  | some k =>
    let l := l.insertAt k.position .key
    let l := l.roll k.column k.position .blockMappingStart
    some ((({ l with candidate := none } : Lexer).allowKey false).take .value 1)
  | none =>
    if !l.inFlow && !l.keyAllowed then none
    else
      let l := l.roll l.cursor.column l.tokens.length .blockMappingStart
      some ((l.allowKey (!l.inFlow)).take .value 1)

/-- The name behind the mark of an anchor or alias. -/
def anchorName? (c : Cursor) : Option (String × Cursor) :=
  let (name, c) := (c.skip 1).spanWhile isWordChar
  if name.isEmpty || !(atGap c.rest || c.rest.head?.any ("?:,]\x7d%@\x60".toList.contains ·)) then
    none
  else some (String.ofList name, c)

/-- A token that may be a key, read by `scan`. -/
def content? (l : Lexer) (scan : Cursor → Option (Token × Cursor)) : Option Lexer := do
  let l ← l.noteCandidate?
  let (t, cursor) ← scan l.cursor
  return { (l.allowKey false).push t with cursor }

/-- A tag, which whatever it belongs to is kept apart from. -/
def tag? (l : Lexer) : Option Lexer := do
  let l ← l.content? fun c => (writtenTag? c).map fun (t, c) => (.tag t, c)
  let rest := l.cursor.rest
  if atGap rest || (l.inFlow && rest.head? = some ',') then some l else none

/-- A block scalar. -/
def block? (l : Lexer) (style : BlockStyle) : Option Lexer := do
  let l ← l.dropCandidate?
  let (text, cursor) ← blockScalar? style l.indent l.cursor
  return { (l.allowKey true).push (.scalar false text) with cursor }

/-- A scalar between quotes. -/
def quoted? (l : Lexer) (q : Quote) : Option Lexer :=
  l.content? fun c => (Yaml.quoted? q c).map fun (text, c) => (.scalar false text, c)

/-- A plain scalar.  A key may follow it on a later line. -/
def plain? (l : Lexer) : Option Lexer := do
  let l ← l.noteCandidate?
  let ((text, broken), cursor) ← Yaml.plain? l.inFlow (l.indent + 1).toNat l.cursor
  return { (l.allowKey broken).push (.scalar true text) with cursor }

/-- Whether a plain scalar may begin with a character, before the text `r`. -/
def beginsPlain (l : Lexer) (c : Char) (r : List Char) : Bool :=
  if c = '-' then !r.head?.any isWhite
  else if c = '?' || c = ':' then !l.inFlow && !atGap r
  else !(isWhite c || isBreak c || ",[]\x7b\x7d#&*!|>'\x22%@\x60".toList.contains c)

/-- The token that stands next, at its character. -/
def token? (l : Lexer) (c : Char) (r : List Char) : Option Lexer :=
  if l.cursor.column = 0 && c = '%' then do
    let l ← l.marginal?
    let (t, cursor) ← directive? l.cursor
    return { l.push t with cursor }
  else if l.cursor.atMarker then do
    let l ← l.marginal?
    return l.take (if c = '-' then .documentStart else .documentEnd) 3
  else if c = '[' then l.openFlow? .flowSequenceStart
  else if c = '\x7b' then l.openFlow? .flowMappingStart
  else if c = ']' then l.closeFlow? .flowSequenceEnd
  else if c = '\x7d' then l.closeFlow? .flowMappingEnd
  else if c = ',' then l.flowEntry?
  else if c = '-' && atGap r then l.marked? .blockSequenceStart .blockEntry true
  else if c = '?' && (l.inFlow || atGap r) then l.marked? .blockMappingStart .key (!l.inFlow)
  else if c = ':' && (l.inFlow || atGap r) then l.value?
  else if c = '*' then
    l.content? fun c => (anchorName? c).map fun (name, c) => (.alias name, c)
  else if c = '&' then
    l.content? fun c => (anchorName? c).map fun (name, c) => (.anchor name, c)
  else if c = '!' then l.tag?
  else if c = '|' && !l.inFlow then l.block? .literal
  else if c = '>' && !l.inFlow then l.block? .folded
  else if c = '\x27' then l.quoted? .single
  else if c = '\x22' then l.quoted? .double
  else if l.beginsPlain c r then l.plain?
  else none

/-- Moves over the next token, or ends the collections at the end of the
text. -/
def next? (l : Lexer) : Option Lexer := do
  let l := l.skipBlanks (l.cursor.rest.length + 1)
  let l ← l.dropAllStale?
  let l := l.unroll l.cursor.column
  match l.cursor.rest with
  | [] => (l.unroll (-1)).dropCandidate?
  | c :: r => l.token? c r

/-- Moves over all tokens. -/
def run? : Nat → Lexer → Option Lexer
  | 0, _ => none
  | bound + 1, l => do
    let l ← l.next?
    if l.cursor.rest.isEmpty then
      -- one more step, since the last token may leave collections open
      l.next?
    else run? bound l

end Lexer

/-- The tokens of a text, if it has any reading at all. -/
def Token.ofText? (text : String) : Option (List Token) :=
  let cs := text.toList
  if cs.all isPrintable then
    (Lexer.run? (cs.length + 1) { cursor := { rest := cs } }).map (·.tokens.reverse)
  else none

end RamlSchema.Yaml
