/-
RamlSchema/Json/LooseText.lean

JSON texts from bytes that need not be UTF-8.

A string that is skimmed may hold bytes that are no character, for nobody looks
at them; anywhere else such a byte is an error.  Escapes of surrogates that
have no partner are of just this kind: fine where a string is skimmed and wrong
elsewhere.  So a stray byte is replaced by such escapes, two of them, since the
second half of a pair never begins like the first.  Behind the backslash of an
escape sequence a stray byte is wrong even in a skimmed string, and the bytes
have no text.
-/

namespace RamlSchema.Json

/-- What stands for a byte that is part of no character. -/
def strayByte : List Char :=
  "\\ud800\\ud800".toList

/-- The characters of the bytes from place `i` on.  `escaped` says that the
backslash of an escape sequence stands before them. -/
def looseChars? (bytes : ByteArray) (escaped : Bool) (i : Nat) : Option (List Char) :=
  if i < bytes.size then
    match bytes.utf8DecodeChar? i with
    | some c =>
      (looseChars? bytes (c = '\\' && !escaped) (i + c.utf8Size)).map (c :: ·)
    | none =>
      if escaped then none else (looseChars? bytes false (i + 1)).map (strayByte ++ ·)
  else some []
termination_by bytes.size - i
decreasing_by
  · have := c.utf8Size_pos
    omega
  · omega

/-- The characters of a JSON text, stray bytes replaced. -/
def looseText? (bytes : ByteArray) : Option (List Char) :=
  match String.fromUTF8? bytes with
  | some text => some text.toList
  | none => looseChars? bytes false 0

end RamlSchema.Json
