/-
RamlSchema/Normalize/NodeShape.lean

What a node of a declared tree says by itself.

`NodeShape.ofJson` looks at the three things that decide how a node is converted:
that it is a mapping, its `properties`, and its `type`.  A node with properties
and no type is an object.  Of a list of candidates for the type the first one
counts.  A node's own `required` is either a list of names, which is kept, or a
flag for the node's parent; `flagged` collects these flags from the properties.
-/
import RamlSchema.Normalize.Error
import RamlSchema.TypeExpr

namespace RamlSchema

/-- The parts of a node that decide how it is converted, with all its members. -/
structure NodeShape where
  members : Members Json
  properties : Option (Members Json)
  type : Option TypeExpr

namespace NodeShape

/-- The text of a type without the blanks around it. -/
def nonblank (text : String) : Except Malformation String :=
  let trimmed := Text.trim text
  if trimmed.isEmpty then .error .blankType else .ok trimmed

/-- The text that the `type` of a node gives. -/
def typeText : Option Json → Except Malformation (Option String)
  | none => .ok none
  | some .null => .ok none
  | some (.str s) => (nonblank s).map some
  | some (.arr []) => .error .noCandidate
  | some (.arr (.str s :: _)) => (nonblank s).map some
  | some (.arr (j :: _)) => .error (.candidateNotString j.kind)
  | some j => .error (.typeNotString j.kind)

/-- The properties of a node. -/
def propertiesOf : Option Json → Except Malformation (Option (Members Json))
  | none => .ok none
  | some .null => .ok none
  | some (.obj ps) => .ok (some ps)
  | some j => .error (.propertiesNotMapping j.kind)

/-- The expression of a type. -/
def typeOf (text : String) : Except Malformation TypeExpr :=
  match TypeExpr.parse? text with
  | some t => .ok t
  | none => .error (.emptyMember text)

/-- Looks at the shape of a node. -/
def ofJson (raw : Json) : Except Malformation NodeShape := do
  match raw with
  | .obj members =>
    let properties ← propertiesOf (Members.get? members "properties")
    let text ← typeText (Members.get? members "type")
    let type ← (text <|> properties.map fun _ => "object").mapM typeOf
    return { members, properties, type }
  | j => .error (.notMapping j.kind)

/-! ### Required names -/

/-- The names in an array, if all of its items are strings. -/
def namesOf : List Json → Except Malformation (List String)
  | [] => .ok []
  | .str s :: js => (namesOf js).map (s :: ·)
  | _ :: _ => .error .requiredNotNames

/-- The required names that a node lists itself. -/
def listed : Option Json → Except Malformation (List String)
  | none => .ok []
  | some .null => .ok []
  | some (.bool _) => .ok []
  | some (.arr js) => namesOf js
  | some _ => .error .requiredNotList

/-- Whether a property is flagged as required. -/
def isFlagged (property : Json) : Bool :=
  (property.member? "required").bind Json.bool? = some true

/-- The names of the properties that are flagged as required. -/
def flagged (properties : Members Json) : List String :=
  Members.keys (properties.filter fun p => isFlagged p.2)

/-! ### Facets -/

/-- Keys that only an author of declarations reads. -/
def authoringKeys : List String :=
  ["name", "displayName", "repeat", "structuredExample"]

/-- Keys that the conversion writes anew. -/
def keywords : List String :=
  ["type", "items", "properties", "required", "$schema", "$ref"]

/-- The facets that are carried through. -/
def facets (n : NodeShape) : List (String × Json) :=
  n.members.filter fun m => m.1 ∉ authoringKeys ∧ m.1 ∉ keywords

/-- The reference that a node carries already. -/
def reference? (n : NodeShape) : Option String :=
  (n.members.get? "$ref").bind Json.str?

/-- The items that a node declares. -/
def items? (n : NodeShape) : Option Json :=
  match n.members.get? "items" with
  | some .null => none
  | items => items

end NodeShape

end RamlSchema
