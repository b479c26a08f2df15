/-
RamlSchema/Yaml/Token/Basic.lean

The tokens of a YAML text.

Some stand for characters of the text; others stand for its layout, namely the
start and end of collections that are set apart by indentation, and the key
that turns out to be one only when its colon comes.
-/
import RamlSchema.Yaml.Tag

namespace RamlSchema.Yaml

/-- A token of a YAML text. -/
inductive Token where
  /-- A version directive. -/
  | version (major minor : Nat)
  /-- A directive that lets a handle stand for the start of tags. -/
  | handle (word : List Char) (start : List UInt8)
  | documentStart
  | documentEnd
  | blockSequenceStart
  | blockMappingStart
  /-- The end of a collection that is set apart by indentation. -/
  | blockEnd
  | flowSequenceStart
  | flowSequenceEnd
  | flowMappingStart
  | flowMappingEnd
  /-- A dash before an item. -/
  | blockEntry
  /-- A comma. -/
  | flowEntry
  | key
  | value
  | alias (name : String)
  | anchor (name : String)
  | tag (t : WrittenTag)
  /-- A scalar; only a plain one may be anything but a string. -/
  | scalar (plain : Bool) (text : List Char)
deriving DecidableEq, Repr

end RamlSchema.Yaml
