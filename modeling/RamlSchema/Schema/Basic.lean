/-
RamlSchema/Schema/Basic.lean

The output of the conversion: schema nodes in the shape of JSON Schema draft 4.

A node holds the keywords that the conversion itself writes, each optional, and
under `extra` the facets that it carries through.  `encode` turns a node into
JSON: the keywords in a fixed order, then the facets.  A facet may bear the name
of a keyword.  Written out, such a node repeats a key (`written`); as a JSON
value it cannot, and the facet's value takes over the keyword's place (`toJson`).
-/
import RamlSchema.Json.Writer
import RamlSchema.Pointer

namespace RamlSchema

/-- The `type` keyword: one name, or several for a union. -/
inductive SchemaType where
  | single (name : String)
  | union (members : List String)
deriving DecidableEq, Repr

namespace SchemaType

/-- The name, if the type is not a union. -/
def single? : SchemaType → Option String
  | .single name => some name
  | .union _ => none

/-- A name as a string, a union as an array of strings. -/
def toJson : SchemaType → Json
  | .single name => .str name
  | .union members => .arr (members.map .str)

end SchemaType

/-- A schema node. -/
structure SchemaNode where
  schema : Option String := none
  reference : Option String := none
  type : Option SchemaType := none
  properties : Option (List (String × SchemaNode)) := none
  items : Option SchemaNode := none
  required : Option (List String) := none
  extra : List (String × Json) := []

namespace SchemaNode

instance : Inhabited SchemaNode := ⟨{}⟩

/-- A node with nothing but a type name. -/
def ofType (name : String) : SchemaNode :=
  { type := some (.single name) }

/-- A node that refers to the document of a type. -/
def referenceTo (typeName : String) : SchemaNode :=
  { reference := some (documentFileName typeName) }

/-- The type name, if the node has a type that is not a union. -/
def typeName? (n : SchemaNode) : Option String :=
  n.type.bind SchemaType.single?

/-- Whether the node's type is `object`. -/
def isObject (n : SchemaNode) : Bool :=
  n.typeName? = some "object"

/-! ### As JSON -/

/-- A member for a keyword that is present. -/
def keyword (name : String) (value : Option Json) : List (String × Json) :=
  match value with
  | some v => [(name, v)]
  | none => []

mutual

/-- The node as JSON, with `collapse` applied to the members of every node. -/
def encode (collapse : List (String × Json) → List (String × Json)) : SchemaNode → Json
  | ⟨schema, reference, type, properties, items, required, extra⟩ =>
    .obj (collapse (keyword "$schema" (schema.map .str)
      ++ keyword "$ref" (reference.map .str)
      ++ keyword "type" (type.map SchemaType.toJson)
      ++ keyword "properties" (encodeProperties collapse properties)
      ++ keyword "items" (encodeItems collapse items)
      ++ keyword "required" (required.map fun names => .arr (names.map .str))
      ++ extra))

/-- The `properties` keyword as JSON. -/
def encodeProperties (collapse : List (String × Json) → List (String × Json)) :
    Option (List (String × SchemaNode)) → Option Json
  | none => none
  | some ps => some (.obj (encodeMembers collapse ps))

/-- Properties as members. -/
def encodeMembers (collapse : List (String × Json) → List (String × Json)) :
    List (String × SchemaNode) → List (String × Json)
  | [] => []
  | (name, n) :: ps => (name, n.encode collapse) :: encodeMembers collapse ps

/-- The `items` keyword as JSON. -/
def encodeItems (collapse : List (String × Json) → List (String × Json)) :
    Option SchemaNode → Option Json
  | none => none
  | some n => some (n.encode collapse)

end

/-- The node as it is written, a facet standing beside the keyword it repeats. -/
def written (n : SchemaNode) : Json :=
  n.encode id

/-- The node as a JSON value, in which a facet takes the place of the keyword
it repeats. -/
def toJson (n : SchemaNode) : Json :=
  n.encode Members.ofList

/-- The text of the node on one line. -/
def text (n : SchemaNode) : String :=
  n.written.text

/-- The text of the node spread out. -/
def prettyText (n : SchemaNode) : String :=
  n.written.prettyText

/-! ### Equality -/

mutual

/-- Equality of nodes; the order of properties and of facets does not count. -/
def same : SchemaNode → SchemaNode → Bool
  | ⟨schema, reference, type, properties, items, required, extra⟩, n =>
    schema = n.schema && reference = n.reference && type = n.type
      && sameProperties properties n.properties && sameItems items n.items
      && required = n.required && Json.same (.obj extra) (.obj n.extra)

/-- Equality of the `properties` keywords. -/
def sameProperties :
    Option (List (String × SchemaNode)) → Option (List (String × SchemaNode)) → Bool
  | none, none => true
  | some ps, some qs => ps.length == qs.length && sameMembers ps qs
  | _, _ => false

/-- Whether each of the properties on the left has an equal one on the right. -/
def sameMembers : List (String × SchemaNode) → List (String × SchemaNode) → Bool
  | [], _ => true
  | (name, n) :: ps, qs =>
    (match Members.get? qs name with
      | some m => n.same m
      | none => false) && sameMembers ps qs

/-- Equality of the `items` keywords. -/
def sameItems : Option SchemaNode → Option SchemaNode → Bool
  | none, none => true
  | some n, some m => n.same m
  | _, _ => false

end

end SchemaNode

end RamlSchema
