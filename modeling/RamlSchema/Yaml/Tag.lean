/-
RamlSchema/Yaml/Tag.lean

Tags: how they are written, and what they mean.

A tag is written as a whole between angle brackets, or as a handle with a
suffix; a handle stands for a text of its own, which a directive may set.
Percent signs introduce bytes, so a tag is a row of bytes; a zero byte ends the
part of a tag that it stands in.  Four of the tags of
the YAML type repository say how a scalar is to be read, a tag that begins with
an exclamation mark is local to the document, and the others say nothing.
-/
import RamlSchema.Text.Hex
import RamlSchema.Yaml.Cursor

namespace RamlSchema.Yaml

/-! ### Bytes -/

/-- The bytes of a text. -/
def bytesOf (cs : List Char) : List UInt8 :=
  cs.flatMap String.utf8EncodeChar

/-- How many bytes a character has whose first byte is this, or zero if none
begins so. -/
def encodedLength (n : Nat) : Nat :=
  if n < 0x80 then 1
  else if 0xc0 ≤ n && n < 0xe0 then 2
  else if 0xe0 ≤ n && n < 0xf0 then 3
  else if 0xf0 ≤ n && n < 0xf8 then 4
  else 0

/-- The byte that a percent sign with two hexadecimal digits stands for. -/
def percentByte? : List Char → Option (Nat × List Char)
  | '%' :: a :: b :: r => (Text.hexNumber? 0 [a, b]).map fun n => (n, r)
  | _ => none

/-- Bytes written with percent signs that continue a character. -/
def continuation? : Nat → List Char → Option (List UInt8 × List Char)
  | 0, cs => some ([], cs)
  | k + 1, cs => do
    let (n, r) ← percentByte? cs
    if 0x80 ≤ n && n < 0xc0 then
      let (bs, r) ← continuation? k r
      return (UInt8.ofNat n :: bs, r)
    else none

/-- The bytes of one character written with percent signs. -/
def percentBytes? (cs : List Char) : Option (List UInt8 × List Char) := do
  let (n, r) ← percentByte? cs
  match encodedLength n with
  | 0 => none
  | k + 1 =>
    let (bs, r) ← continuation? k r
    return (UInt8.ofNat n :: bs, r)

/-! ### Spelling -/

/-- A character of a tag.  Commas and brackets belong to it only between angle
brackets and in directives. -/
def isTagChar (verbatim : Bool) (c : Char) : Bool :=
  isWordChar c || ";/?:@&=+$.%!~*'()".toList.contains c
    || (verbatim && (c = ',' || c = '[' || c = ']'))

/-- The bytes of the tag characters at the start of a text, with the number of
characters that they take up. -/
def tagBytes? (verbatim : Bool) : Nat → List Char → Option (List UInt8 × Nat)
  | 0, _ => none
  | bound + 1, cs =>
    match cs with
    | [] => some ([], 0)
    | c :: r =>
      if c = '%' then do
        let (bs, r') ← percentBytes? cs
        let (more, n) ← tagBytes? verbatim bound r'
        return (bs ++ more, cs.length - r'.length + n)
      else if isTagChar verbatim c then
        (tagBytes? verbatim bound r).map fun (more, n) => (bytesOf [c] ++ more, n + 1)
      else some ([], 0)

/-- The tag characters that stand next. -/
def tagChars? (verbatim : Bool) (c : Cursor) : Option (List UInt8 × Cursor) :=
  (tagBytes? verbatim (c.rest.length + 1) c.rest).map fun (bs, n) => (bs, c.skip n)

/-- The word of a handle that stands next: an exclamation mark, word characters
and, if it is there, another exclamation mark. -/
def handle? (c : Cursor) : Option (List Char × Cursor) :=
  match c.rest with
  | '!' :: _ =>
    let (word, c) := (c.skip 1).spanWhile isWordChar
    match c.rest with
    | '!' :: _ => some ('!' :: word ++ ['!'], c.skip 1)
    | _ => some ('!' :: word, c)
  | _ => none

/-- Whether a word is a handle with two marks. -/
def isNamedHandle (word : List Char) : Bool :=
  1 < word.length && word.getLast? = some '!'

/-- The bytes before the first that is zero. -/
def beforeZero (bytes : List UInt8) : List UInt8 :=
  bytes.takeWhile (· ≠ 0)

/-- A tag as it is written: a handle, which may be empty, and a suffix. -/
structure WrittenTag where
  handle : List Char
  suffix : List UInt8
deriving DecidableEq, Repr

/-- The tag that begins here.  A lone exclamation mark is a suffix without a
handle. -/
def writtenTag? (c : Cursor) : Option (WrittenTag × Cursor) :=
  match c.rest with
  | '!' :: '<' :: _ => do
    let (suffix, c) ← tagChars? true (c.skip 2)
    if suffix.isEmpty || c.rest.head? ≠ some '>' then none
    else some (⟨[], beforeZero suffix⟩, c.skip 1)
  | _ => do
    let (word, c) ← handle? c
    let (more, c) ← tagChars? false c
    if isNamedHandle word then
      if more.isEmpty then none else some (⟨word, beforeZero more⟩, c)
    else
      let suffix := beforeZero (bytesOf (word.drop 1) ++ more)
      if suffix.isEmpty then some (⟨[], bytesOf ['!']⟩, c) else some (⟨['!'], suffix⟩, c)

/-! ### Meaning -/

/-- What a tag says. -/
inductive Tag where
  /-- The scalar is to be read as the word for nothing. -/
  | null
  | bool
  | int
  | float
  /-- The tag is local to the document.  The name is without its mark; there is
  none where the bytes are no text. -/
  | named (name : Option String)
  /-- The tag says nothing: a scalar is a string. -/
  | other
deriving DecidableEq, Repr

/-- The start of the tags of the YAML type repository. -/
def repositoryTag : List UInt8 :=
  bytesOf "tag:yaml.org,2002:".toList

/-- Takes an exclamation mark off, unless nothing is left then. -/
def withoutMark (cs : List Char) : List Char :=
  match cs with
  | '!' :: c :: r => c :: r
  | _ => cs

/-- The name of a local tag, from its text behind the mark. -/
def localName (bytes : List UInt8) : Option String :=
  (String.fromUTF8? (ByteArray.mk bytes.toArray)).map fun s =>
    String.ofList (withoutMark (if s.isEmpty then ['!'] else s.toList))

/-- What the bytes of a tag say. -/
def Tag.ofBytes (bytes : List UInt8) : Tag :=
  if bytes = repositoryTag ++ bytesOf "null".toList then .null
  else if bytes = repositoryTag ++ bytesOf "bool".toList then .bool
  else if bytes = repositoryTag ++ bytesOf "int".toList then .int
  else if bytes = repositoryTag ++ bytesOf "float".toList then .float
  else
    match bytes with
    | 0x21 :: r => .named (localName r)
    | _ => .other

end RamlSchema.Yaml
