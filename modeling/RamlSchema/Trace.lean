/-
RamlSchema/Trace.lean

What loading and converting a graph report on their way.

An event is a fact about a type; its level, its message and its fields are what
a log shows of it.  A line of a log has the texts of fields between quotes, so
that they cannot break it, except for errors, which are told in their own words,
and for the names of declarations that have just been read.
-/
import RamlSchema.Json.Writer
import RamlSchema.Normalize.Error

namespace RamlSchema

/-- The levels of a log that events are on. -/
inductive Level where
  | debug
  | warn
deriving DecidableEq, Repr

/-- A level as a log names it. -/
def Level.name : Level → String
  | .debug => "DEBUG"
  | .warn => "WARN"

/-- Something that happened to a type. -/
inductive Event where
  /-- Its declaration was read from a document. -/
  | loaded (typeName : String)
  /-- Its tree was converted. -/
  | normalized (typeName : String)
  /-- It was put in the place of a reference, for the first time. -/
  | hoisted (typeName : String) (location : Location)
  /-- It was referred to, since it was being converted already. -/
  | cycleBroken (typeName : String) (location : Location)
  /-- A union has a member that is an array. -/
  | arrayInUnion (location : Location) (member : String)
  /-- An array has elements that are a union. -/
  | arrayOfUnion (location : Location) (element : String)
  /-- It was given up. -/
  | skipped (typeName : String) (error : ConvertError)
deriving DecidableEq, Repr

namespace Event

/-- The level of an event. -/
def level : Event → Level
  | .loaded _ | .normalized _ | .hoisted _ _ | .cycleBroken _ _ => .debug
  | .arrayInUnion _ _ | .arrayOfUnion _ _ | .skipped _ _ => .warn

/-- The message of an event. -/
def message : Event → String
  | .loaded _ => "loaded RAML type declaration"
  | .normalized _ => "normalized type"
  | .hoisted _ _ => "hoisted nested type"
  | .cycleBroken _ _ => "cyclic reference replaced with $ref"
  | .arrayInUnion _ _ =>
    "array types inside a union are not supported; member left as written"
  | .arrayOfUnion _ _ =>
    "array-of-union types are not supported; element type left as written"
  | .skipped _ _ => "skipping type"

/-- The fields of an event with their texts. -/
def fields : Event → List (String × String)
  | .loaded typeName => [("type_name", typeName)]
  | .normalized typeName => [("type_name", typeName)]
  | .hoisted typeName location => [("type_name", typeName), ("path", location.text)]
  | .cycleBroken typeName location => [("type_name", typeName), ("path", location.text)]
  | .arrayInUnion location member => [("path", location.text), ("member", member)]
  | .arrayOfUnion location element => [("path", location.text), ("element", element)]
  | .skipped typeName error => [("type_name", typeName), ("error", error.message)]

/-- A text between quotes. -/
def quoted (text : String) : String :=
  String.ofList (Json.renderString text)

/-- The fields of an event as a line of a log has them. -/
def loggedFields : Event → List (String × String)
  | .loaded typeName => [("type_name", typeName)]
  | .skipped typeName error => [("type_name", quoted typeName), ("error", error.message)]
  | e => e.fields.map fun f => (f.1, quoted f.2)

/-- The line of a log for an event. -/
def logLine (e : Event) : String :=
  " ".intercalate (e.level.name :: e.message :: e.loggedFields.map fun f => f.1 ++ "=" ++ f.2)

end Event

end RamlSchema
