/-
RamlSchema/Json/Reader.lean

JSON values from text.

The grammar is that of JSON and no wider: blanks are the space, the tab and the
two line breaks, a string holds no raw control character and pairs its
surrogates, and nothing but blanks follows a document.  A repeated key keeps
its first place and takes its last value.  Containers nest at most 127 deep;
`nestingLimit` is what the recursion over values descends on.

Of two errors the one that stands first in the text is reported.
-/
import RamlSchema.Json.Numeral
import RamlSchema.Text.Hex

namespace RamlSchema.Json

/-! ### Blanks and words -/

/-- A blank between the tokens of a JSON text. -/
def isJsonBlank (c : Char) : Bool :=
  c = ' ' || c = '\n' || c = '\t' || c = '\r'

/-- The text from its first character that is no blank. -/
def skipBlanks (cs : List Char) : List Char :=
  cs.dropWhile isJsonBlank

/-- The rest of a word, which stands for `v`. -/
def readWord {α : Type} (v : α) : List Char → List Char → Read α
  | [], cs => .ok (v, cs)
  | _ :: _, [] => .error .endOfText
  | w :: ws, c :: cs => if c = w then readWord v ws cs else .error .malformed

/-! ### Strings -/

/-- The code unit that four hexadecimal digits stand for. -/
def codeUnit? (a b c d : Char) : Option Nat :=
  Text.hexNumber? 0 [a, b, c, d]

/-- The first half of a surrogate pair. -/
def isHighSurrogate (n : Nat) : Bool :=
  0xd800 ≤ n && n ≤ 0xdbff

/-- The second half of a surrogate pair. -/
def isLowSurrogate (n : Nat) : Bool :=
  0xdc00 ≤ n && n ≤ 0xdfff

/-- The character that a surrogate pair stands for. -/
def pairedChar (high low : Nat) : Char :=
  Char.ofNat ((high - 0xd800) * 0x400 + (low - 0xdc00) + 0x10000)

/-- The character that a letter behind a backslash stands for. -/
def unescape? (c : Char) : Option Char :=
  match c with
  | '\x22' => some '\x22'
  | '\\' => some '\\'
  | '/' => some '/'
  | 'b' => some '\x08'
  | 'f' => some '\x0c'
  | 'n' => some '\n'
  | 'r' => some '\r'
  | 't' => some '\t'
  | _ => none

/-- The error of a numeric escape that the text is too short for, by bytes or
only by characters. -/
def shortEscape (cs : List Char) : ReadError :=
  if (String.ofList cs).utf8ByteSize < 4 then .endOfText else .malformed

/-- Puts a character before a string that has been read. -/
def consChar (c : Char) (r : Read (List Char)) : Read (List Char) :=
  r.map fun (t, rest) => (c :: t, rest)

/-- A string from behind its opening quote, up to and with the closing one. -/
def readString (s : Strictness) : List Char → Read (List Char)
  | [] => .error .endOfText
  | c :: cs =>
    if c = '\x22' then .ok ([], cs)
    else if c = '\\' then
      match cs with
      | [] => .error .endOfText
      | 'u' :: a :: b :: d :: e :: r =>
        match codeUnit? a b d e with
        | none => .error .malformed
        | some n =>
          if s = .full && isLowSurrogate n then .error .malformed
          else if s = .full && isHighSurrogate n then
            match r with
            | [] => .error .endOfText
            | ['\\'] => .error .endOfText
            | '\\' :: 'u' :: a' :: b' :: d' :: e' :: r' =>
              match codeUnit? a' b' d' e' with
              | none => .error .malformed
              | some m =>
                if isLowSurrogate m then consChar (pairedChar n m) (readString s r')
                else .error .malformed
            | '\\' :: 'u' :: r' => .error (shortEscape r')
            | _ => .error .malformed
          else consChar (Char.ofNat n) (readString s r)
      | 'u' :: r => .error (shortEscape r)
      | e :: r =>
        match unescape? e with
        | some c' => consChar c' (readString s r)
        | none => .error .malformed
    else if c < ' ' then .error .malformed
    else consChar c (readString s cs)

/-- A string, which has to stand at the first character that is no blank. -/
def readKey (s : Strictness) (cs : List Char) : Read String :=
  match skipBlanks cs with
  | [] => .error .endOfText
  | '\x22' :: r => (readString s r).map fun (t, rest) => (String.ofList t, rest)
  | _ => .error .malformed

/-- The colon between a key and its value. -/
def readColon (cs : List Char) : Read Unit :=
  match skipBlanks cs with
  | [] => .error .endOfText
  | ':' :: r => .ok ((), r)
  | _ => .error .malformed

/-! ### Containers -/

/-- Reads the parts of a container with commas between them, up to and with
the closing bracket; each takes what the ones before it have built further.
There are fewer than `bound` of them. -/
def readParts {σ : Type} (closing : Char) (part : σ → List Char → Read σ) :
    Nat → σ → List Char → Except ReadError (σ × List Char)
  | 0, _, _ => .error .endOfText
  | bound + 1, s, cs => do
    let (s, cs) ← part s cs
    match skipBlanks cs with
    | [] => .error .endOfText
    | c :: r =>
      if c = closing then return (s, r)
      else if c = ',' then readParts closing part bound s r
      else .error .malformed

/-- Reads a container from behind its opening bracket. -/
def readContainer {σ : Type} (closing : Char) (part : σ → List Char → Read σ) (s : σ)
    (cs : List Char) : Read σ :=
  match skipBlanks cs with
  | [] => .error .endOfText
  | c :: r => if c = closing then .ok (s, r) else readParts closing part (r.length + 2) s (c :: r)

/-- Reads an item behind those that have been read, the last of them first. -/
def readItem {α : Type} (value : List Char → Read α) (xs : List α) (cs : List Char) :
    Read (List α) :=
  (value cs).map fun (x, rest) => (x :: xs, rest)

/-- Reads a key with its value into the members that have been read. -/
def readMember {α : Type} (s : Strictness) (value : List Char → Read α) (ms : Members α)
    (cs : List Char) : Except ReadError (Members α × List Char) := do
  let (k, cs) ← readKey s cs
  let ((), cs) ← readColon cs
  let (v, cs) ← value cs
  return (ms.insert k v, cs)

/-! ### Values -/

/-- A number. -/
def readNumber (s : Strictness) (cs : List Char) : Except ReadError (Json × List Char) := do
  let (l, r) ← Numeral.scan s cs
  match l.number? with
  | some n => return (.num n, r)
  | none => if s = .full then .error .malformed else return (.null, r)

/-- A value whose containers nest at most `depth` deep. -/
def readValue (s : Strictness) : Nat → List Char → Read Json
  | depth, cs =>
    match skipBlanks cs with
    | [] => .error .endOfText
    | 'n' :: r => readWord .null ['u', 'l', 'l'] r
    | 't' :: r => readWord (.bool true) ['r', 'u', 'e'] r
    | 'f' :: r => readWord (.bool false) ['a', 'l', 's', 'e'] r
    | '\x22' :: r => (readString s r).map fun (t, rest) => (.str (String.ofList t), rest)
    | '[' :: r =>
      match depth with
      | 0 => .error .malformed
      | depth + 1 =>
        (readContainer ']' (readItem (readValue s depth)) [] r).map fun (xs, rest) =>
          (.arr xs.reverse, rest)
    | '\x7b' :: r =>
      match depth with
      | 0 => .error .malformed
      | depth + 1 =>
        (readContainer '\x7d' (readMember s (readValue s depth)) [] r).map fun (ms, rest) =>
          (.obj ms, rest)
    | c :: r => if c = '-' || c.isDigit then readNumber s (c :: r) else .error .malformed

/-- How deep containers may nest. -/
def nestingLimit : Nat := 127

/-- Passes over a value that nobody wants, however deep it nests. -/
def skimValue (cs : List Char) : Read Unit :=
  (readValue .skim cs.length cs).map fun (_, rest) => ((), rest)

/-- The error where a value of another kind than the wanted one begins.  A
container is refused at its bracket, a leaf is read first. -/
def wrongKindAt (cs : List Char) : ReadError :=
  match skipBlanks cs with
  | '[' :: _ => .wrongKind
  | '\x7b' :: _ => .wrongKind
  | cs =>
    match readValue .full 0 cs with
    | .ok _ => .wrongKind
    | .error e => e

/-! ### Documents -/

/-- The value, provided that only blanks follow it. -/
def expectEnd {α : Type} : α × List Char → Except ReadError α
  | (v, rest) => if (skipBlanks rest).isEmpty then .ok v else .error .malformed

/-- The value that a text holds. -/
def read (text : String) : Except ReadError Json :=
  readValue .full nestingLimit text.toList >>= expectEnd

/-- The members of the object that a text holds. -/
def readObject (text : String) : Except ReadError (Members Json) :=
  match skipBlanks text.toList with
  | '\x7b' :: r =>
    readContainer '\x7d' (readMember .full (readValue .full (nestingLimit - 1))) [] r >>= expectEnd
  | cs => .error (wrongKindAt cs)

end RamlSchema.Json
