/-
RamlSchema/Normalize/Visit.lean

Converting a node and everything below it.

A node whose single type is a declared name is replaced by that type's schema,
with the node's own keywords laid over it.  The type is converted when it is
met for the first time, and then kept.  A type that is met again while it is
being converted closes a cycle, which the options' policy breaks.

`visitNode` is one level of the conversion: whatever lies a level further down,
be it a property, an element, an item or a referenced type, goes through
`deeper`.  `visit` ties the knot, and its recursion is on the number of levels
that the options still allow.
-/
import RamlSchema.Normalize.NodeShape
import RamlSchema.Normalize.Progress
import RamlSchema.Options.Basic
import RamlSchema.Schema.Overlay
import RamlSchema.TypeGraph

namespace RamlSchema

/-- A conversion of nodes at their places. -/
abbrev Visitor := Json → Location → Convert SchemaNode

variable (g : TypeGraph) (o : Options) (deeper : Visitor)

/-! ### Types by name -/

/-- The schema of a declared type, converted now or earlier. -/
def visitNamed (name : String) : Convert SchemaNode := do
  match (← get).definition? name with
  | some n => return n
  | none =>
    match g.tree? name with
    | none => throw (.malformed ⟨name, []⟩ .undeclared)
    | some tree =>
      let n ← Convert.within name (deeper tree ⟨name, []⟩)
      modify (·.define name n)
      return n

/-- What stands for a type that is met while it is being converted. -/
def breakCycle (name : String) (location : Location) : Convert SchemaNode := do
  match o.onCycle with
  | .reference =>
    modify (·.breakCycle name location)
    return .referenceTo name
  | .error => throw (.cyclic location ((← get).cycleThrough name))

/-- The schema in the place of a reference. -/
def resolve (name : String) (location : Location) : Convert SchemaNode := do
  if name ∈ (← get).inProgress then breakCycle o name location
  else
    let n ← visitNamed g deeper name
    modify (·.nest name location)
    return n

/-! ### Parts of a node -/

/-- The element of an array expression.  A union is left as it is written. -/
def visitElement (element : String) (location : Location) : Convert SchemaNode := do
  if TypeExpr.hasBar element then
    modify (·.emit (.arrayOfUnion location element))
    return .ofType element
  else deeper (.obj [("type", .str element)]) location

/-- The items that a node declares: an expression, candidates for one, or a
node. -/
def visitItems (items : Json) (location : Location) : Convert SchemaNode :=
  match items with
  | .str _ => deeper (.obj [("type", items)]) location
  | .arr _ => deeper (.obj [("type", items)]) location
  | .obj _ => deeper items location
  | j => throw (.malformed location (.itemsNotType j.kind))

/-- Reports the members of a union that are arrays. -/
def reportArrays (location : Location) : List String → Convert Unit
  | [] => return ()
  | m :: ms => do
    if TypeExpr.endsInBrackets m then modify (·.emit (.arrayInUnion location m))
    reportArrays location ms

/-- The `type` keyword of a node, and its `items` where the type gives them. -/
def visitType (type : Option TypeExpr) (location : Location) :
    Convert (Option SchemaType × Option SchemaNode) := do
  match type with
  | none => return (none, none)
  | some (.named name) => return (some (.single name), none)
  | some (.union members) =>
    reportArrays location members
    return (some (.union members), none)
  | some (.arrayOf element) =>
    let n ← visitElement deeper element (location.descend ["items"])
    return (some (.single "array"), some n)

/-- The properties of a node. -/
def visitProperties (location : Location) :
    List (String × Json) → Convert (List (String × SchemaNode))
  | [] => return []
  | (name, raw) :: ps => do
    let n ← deeper raw (location.descend ["properties", name])
    let ns ← visitProperties location ps
    return (name, n) :: ns

/-! ### Nodes -/

/-- Whether a type may have properties: it is `object` or declared. -/
def mayHaveProperties (type : Option SchemaType) : Bool :=
  match type.bind SchemaType.single? with
  | some name => name = "object" || g.contains name
  | none => false

/-- A type as messages name it. -/
def describeType : Option SchemaType → String
  | some (.single name) => name
  | some (.union members) => " | ".intercalate members
  | none => "(none)"

/-- The `properties` of a node, and its required names with those of the
flagged properties. -/
def visitDeclared (type : Option SchemaType) (properties : Option (Members Json))
    (required : List String) (location : Location) :
    Convert (Option (List (String × SchemaNode)) × List String) := do
  match properties with
  | none => return (none, required)
  | some ps =>
    if !ps.isEmpty && !mayHaveProperties g type then
      throw (.malformed location (.propertiesOnType (describeType type)))
    let ns ← visitProperties deeper location ps
    return (some ns, Names.addAll required (NodeShape.flagged ps))

/-- The keywords that a node gives by itself, before a type that it names is
looked up. -/
def visitOwn (node : NodeShape) (location : Location) : Convert SchemaNode := do
  let (type, element) ← visitType deeper node.type location
  let items ← match element, node.items? with
    | some n, _ => pure (some n)
    | none, none => pure none
    | none, some items => some <$> visitItems deeper items (location.descend ["items"])
  let required ← Convert.require location (NodeShape.listed (node.members.get? "required"))
  let (properties, required) ← visitDeclared g deeper type node.properties required location
  return {
    reference := node.reference?
    type
    properties
    items
    required := if required.isEmpty then none else some required
    extra := node.facets }

/-- One level of the conversion. -/
def visitNode (raw : Json) (location : Location) : Convert SchemaNode := do
  let node ← Convert.require location (NodeShape.ofJson raw)
  let own ← visitOwn g deeper node location
  match own.typeName? with
  | some name =>
    if g.contains name then
      let base ← resolve g o deeper name location
      return base.overlay { own with type := none }
    else return own
  | none => return own

/-- Converts a node that may have `levels` levels, itself included. -/
def visit : Nat → Visitor
  | 0, _, location => throw (.tooDeep location o.maxDepth)
  | levels + 1, raw, location => visitNode g o (visit levels) raw location

/-- Converts the declared type `name`, or returns what it was converted to. -/
def normalizeType (name : String) : Convert SchemaNode :=
  visitNamed g (visit g o (o.maxDepth + 1)) name

end RamlSchema
