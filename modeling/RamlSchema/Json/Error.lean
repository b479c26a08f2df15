/-
RamlSchema/Json/Error.lean

Why a text could not be read as the JSON value that was wanted.
-/

namespace RamlSchema.Json

/-- Why a text could not be read. -/
inductive ReadError where
  /-- The text ends where more of it is due. -/
  | endOfText
  /-- A value stands there, but of another kind than the one wanted. -/
  | wrongKind
  /-- Anything else: the text is not JSON, or exceeds what a reader takes. -/
  | malformed
deriving DecidableEq, Repr

/-- What a reader answers: a value and the text behind it, or an error. -/
abbrev Read (α : Type) := Except ReadError (α × List Char)

/-- How closely a text is looked at.  A value that nobody wants is only
skimmed: it has to be JSON by its grammar, but its numbers may be out of range
and its surrogates unpaired. -/
inductive Strictness where
  | full
  | skim
deriving DecidableEq, Repr

end RamlSchema.Json
