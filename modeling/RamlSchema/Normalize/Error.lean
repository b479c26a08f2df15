/-
RamlSchema/Normalize/Error.lean

Why a type cannot be converted.

An error says where it arose.  A node may be malformed in a dozen ways, a type
may be reached again from within itself, and nodes may nest too deep.  The
wording is in `message` and nowhere else.
-/
import RamlSchema.Json.Basic
import RamlSchema.Pointer

namespace RamlSchema

/-- What is wrong with a single node. -/
inductive Malformation where
  /-- The node is no mapping. -/
  | notMapping (found : Json.Kind)
  /-- Its `properties` are no mapping. -/
  | propertiesNotMapping (found : Json.Kind)
  /-- Its `type` is neither a string nor an array. -/
  | typeNotString (found : Json.Kind)
  /-- Its `type` is an array whose first item is no string. -/
  | candidateNotString (found : Json.Kind)
  /-- Its `type` is an array without items. -/
  | noCandidate
  /-- Its `type` is blank. -/
  | blankType
  /-- Its `type` is a union with a blank member. -/
  | emptyMember (expression : String)
  /-- Its `items` are neither an expression nor a mapping. -/
  | itemsNotType (found : Json.Kind)
  /-- Its `required` is an array with an item that is no string. -/
  | requiredNotNames
  /-- Its `required` is neither a boolean nor an array. -/
  | requiredNotList
  /-- It has properties, but its type is not an object. -/
  | propertiesOnType (type : String)
  /-- It is the root of a type that nobody declared. -/
  | undeclared
deriving DecidableEq, Repr

namespace Malformation

/-- The wording of a malformation. -/
def message : Malformation → String
  | .notMapping found => "expected a mapping, found " ++ found.phrase
  | .propertiesNotMapping found => "properties must be a mapping, found " ++ found.phrase
  | .typeNotString found =>
    "type must be a string or an array of strings, found " ++ found.phrase
  | .candidateNotString found => "type candidate must be a string, found " ++ found.phrase
  | .noCandidate => "type array is empty"
  | .blankType => "type is empty"
  | .emptyMember expression => "union \x60" ++ expression ++ "\x60 has an empty member"
  | .itemsNotType found =>
    "items must be a type expression or a mapping, found " ++ found.phrase
  | .requiredNotNames => "required array must contain only strings"
  | .requiredNotList => "required must be a boolean flag or an array of property names"
  | .propertiesOnType type => "properties declared on non-object type " ++ type
  | .undeclared => "type is not declared"

end Malformation

/-- Why a type cannot be converted. -/
inductive ConvertError where
  /-- A node is malformed. -/
  | malformed (location : Location) (cause : Malformation)
  /-- A type is reached again: the types on the way, the first one also last. -/
  | cyclic (location : Location) (cycle : List String)
  /-- A node lies deeper than the options allow. -/
  | tooDeep (location : Location) (maxDepth : Nat)
deriving DecidableEq, Repr

namespace ConvertError

/-- Where the error arose. -/
def location : ConvertError → Location
  | .malformed location _ => location
  | .cyclic location _ => location
  | .tooDeep location _ => location

/-- The wording of an error. -/
def message : ConvertError → String
  | .malformed location cause =>
    "Malformed type node at " ++ location.text ++ ": " ++ cause.message
  | .cyclic location cycle =>
    "Cyclic type reference at " ++ location.text ++ ": " ++ " -> ".intercalate cycle
  | .tooDeep location maxDepth =>
    "Recursion depth exceeded at " ++ location.text ++ " (max: " ++ toString maxDepth ++ ")"

end ConvertError

end RamlSchema
