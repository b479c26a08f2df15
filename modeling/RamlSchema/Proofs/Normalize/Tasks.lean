/-
RamlSchema/Proofs/Normalize/Tasks.lean

What a node asks for, as data.

The conversion of a node's own keywords interleaves three things: reports of
notations that are not supported, local checks that may fail, and conversions
of what lies a level further down.  `NodeShape.tasks` lists them in the order in
which they happen, and `NodeShape.assemble` puts the results together.

Main result: `visitOwn_eq`.  Converting the own keywords of a node is nothing
but performing its tasks and assembling what they give.  The parts of a node
(`NodeShape.parts`) are a static notion, which needs neither a graph nor a
state; exactly they are what its tasks convert (`part?_tasks`), and a node passes
its local checks if and only if none of its tasks fails (`sound_iff`).
-/
import RamlSchema.Normalize.Visit

namespace RamlSchema

/-! ### Parts -/

/-- A step from a node to one right below it. -/
inductive Step where
  | items
  | property (name : String)
deriving DecidableEq, Repr

/-- The keys along a step. -/
def Step.keys : Step → List String
  | .items => ["items"]
  | .property name => ["properties", name]

/-- What stands right below a node of a tree: a node, or the element of an
array that is a union and is left as it is written. -/
inductive Part where
  | node (raw : Json)
  | written (element : String)

/-- The part that a type expression stands for. -/
def Part.ofExpression (type : Json) : Part :=
  .node (.obj [("type", type)])

namespace NodeShape

/-- What gives a node its items: the element of an array expression, which goes
first, or the items that it declares. -/
def itemPart? (n : NodeShape) : Option Part :=
  match n.type with
  | some (.arrayOf element) =>
    if TypeExpr.hasBar element then some (.written element)
    else some (.ofExpression (.str element))
  | _ =>
    match n.items? with
    | some (.str s) => some (.ofExpression (.str s))
    | some (.arr js) => some (.ofExpression (.arr js))
    | some (.obj ms) => some (.node (.obj ms))
    | _ => none

/-- The parts that give a node its items. -/
def itemParts (n : NodeShape) : List (Step × Part) :=
  n.itemPart?.toList.map fun part => (.items, part)

/-- The parts that give a node its properties. -/
def propertyParts (n : NodeShape) : List (Step × Part) :=
  (n.properties.getD []).map fun p => (.property p.1, .node p.2)

/-- The parts of a node in the order in which they are converted. -/
def parts (n : NodeShape) : List (Step × Part) :=
  n.itemParts ++ n.propertyParts

/-! ### Local checks -/

/-- The `type` keyword that a node's type expression gives. -/
def schemaType (n : NodeShape) : Option SchemaType :=
  n.type.map fun
    | .named name => .single name
    | .arrayOf _ => .single "array"
    | .union members => .union members

/-- The single type of a node: the one that its expression names, `array` for
an array, `object` for properties without a type. -/
def typeName? (n : NodeShape) : Option String :=
  n.schemaType.bind SchemaType.single?

/-- Checks that declared items are an expression or a node, unless an array
expression takes their place. -/
def checkItems (n : NodeShape) : Except Malformation Unit :=
  match n.type with
  | some (.arrayOf _) => .ok ()
  | _ =>
    match n.items? with
    | none | some (.str _) | some (.arr _) | some (.obj _) => .ok ()
    | some j => .error (.itemsNotType j.kind)

/-- Checks that required names are names. -/
def checkRequired (n : NodeShape) : Except Malformation Unit :=
  (listed (n.members.get? "required")).map fun _ => ()

/-- Checks that properties stand on an object. -/
def checkProperties (g : TypeGraph) (n : NodeShape) : Except Malformation Unit :=
  if !(n.properties.getD []).isEmpty && !mayHaveProperties g n.schemaType then
    .error (.propertiesOnType (describeType n.schemaType))
  else .ok ()

/-- A node that passes all local checks. -/
structure Sound (g : TypeGraph) (n : NodeShape) : Prop where
  items : n.checkItems = .ok ()
  required : n.checkRequired = .ok ()
  properties : n.checkProperties g = .ok ()

/-- The required names of a node, its own and those of flagged properties. -/
def requiredNames (n : NodeShape) : List String :=
  match listed (n.members.get? "required") with
  | .error _ => []
  | .ok names => Names.addAll names (flagged (n.properties.getD []))

end NodeShape

/-! ### Tasks -/

/-- A thing to be done for a node. -/
inductive Task where
  | report (e : Event)
  | fail (e : ConvertError)
  | convert (step : Step) (part : Part)

namespace Task

/-- The task that a check gives: none if it passes. -/
def check (location : Location) : Except Malformation Unit → List Task
  | .ok () => []
  | .error cause => [.fail (.malformed location cause)]

/-- The task of converting a part. -/
def ofPart (p : Step × Part) : Task :=
  .convert p.1 p.2

/-- The part that a task converts. -/
def part? : Task → Option (Step × Part)
  | .convert step part => some (step, part)
  | _ => none

end Task

/-- The reports of a node's type. -/
def NodeShape.reports (n : NodeShape) (location : Location) : List Task :=
  match n.type with
  | some (.union members) =>
    (members.filter TypeExpr.endsInBrackets).map fun m => .report (.arrayInUnion location m)
  | _ => []

/-- The tasks of a node in order. -/
def NodeShape.tasks (g : TypeGraph) (n : NodeShape) (location : Location) : List Task :=
  n.reports location
    ++ Task.check (location.descend ["items"]) n.checkItems
    ++ n.itemParts.map Task.ofPart
    ++ Task.check location n.checkRequired
    ++ Task.check location (n.checkProperties g)
    ++ n.propertyParts.map Task.ofPart

/-- Converts a part. -/
def visitPart (deeper : Visitor) (part : Part) (location : Location) : Convert SchemaNode :=
  match part with
  | .node raw => deeper raw location
  | .written element => do
    modify (·.emit (.arrayOfUnion location element))
    return .ofType element

/-- Performs tasks one by one, up to the first failure. -/
def perform (deeper : Visitor) (location : Location) :
    List Task → Convert (List (Step × SchemaNode))
  | [] => return []
  | .report e :: ts => do
    modify (·.emit e)
    perform deeper location ts
  | .fail e :: _ => throw e
  | .convert step part :: ts => do
    let n ← visitPart deeper part (location.descend step.keys)
    let done ← perform deeper location ts
    return (step, n) :: done

/-! ### Assembly -/

/-- The properties among converted parts. -/
def propertiesIn (done : List (Step × SchemaNode)) : List (String × SchemaNode) :=
  done.filterMap fun
    | (.property name, n) => some (name, n)
    | (.items, _) => none

/-- The items among converted parts. -/
def itemsIn (done : List (Step × SchemaNode)) : Option SchemaNode :=
  done.findSome? fun
    | (.items, n) => some n
    | (.property _, _) => none

/-- A node with other parts in the place of its own. -/
def SchemaNode.fill (n : SchemaNode) (done : List (Step × SchemaNode)) : SchemaNode :=
  { n with
    properties := n.properties.map fun _ => propertiesIn done
    items := itemsIn done }

/-- The keywords that a node gives without its parts. -/
def NodeShape.frame (n : NodeShape) : SchemaNode where
  reference := n.reference?
  type := n.schemaType
  properties := n.properties.map fun _ => []
  required := if n.requiredNames.isEmpty then none else some n.requiredNames
  extra := n.facets

/-- The own keywords of a node whose parts have been converted. -/
def NodeShape.assemble (n : NodeShape) (done : List (Step × SchemaNode)) : SchemaNode :=
  n.frame.fill done

/-! ### Performing tasks -/

section Perform

variable (deeper : Visitor) (location : Location)

theorem perform_append (ts us : List Task) :
    perform deeper location (ts ++ us) = do
      let done ← perform deeper location ts
      let rest ← perform deeper location us
      return done ++ rest := by
  induction ts with
  | nil => simp [perform]
  | cons t ts ih =>
    cases t with
    | report e => simp [perform, ih]
    | fail e => simp [perform]
    | convert step part => simp [perform, ih]

/-- A check gives nothing to assemble. -/
theorem perform_check (place : Location) (x : Except Malformation Unit) :
    perform deeper location (Task.check place x) = (fun _ => []) <$> Convert.require place x := by
  rcases x with cause | ⟨⟩ <;> simp [Task.check, perform, Convert.require]

/-- The reports of a node's type, all at once. -/
def reportType (node : NodeShape) : Convert Unit :=
  match node.type with
  | some (.union members) => reportArrays location members
  | _ => return ()

theorem perform_arrayReports (members : List String) :
    perform deeper location ((members.filter TypeExpr.endsInBrackets).map
        fun m => .report (.arrayInUnion location m))
      = (fun _ => []) <$> reportArrays location members := by
  induction members with
  | nil => simp [reportArrays, perform]
  | cons m ms ih =>
    by_cases h : TypeExpr.endsInBrackets m
    · simp [reportArrays, perform, h, ih]
    · simpa [reportArrays, perform, h] using ih

/-- Reports give nothing to assemble either. -/
theorem perform_reports (node : NodeShape) :
    perform deeper location (node.reports location)
      = (fun _ => []) <$> reportType location node := by
  rcases h : node.type with - | (name | element | members) <;>
    simp [NodeShape.reports, reportType, h, perform, perform_arrayReports]

theorem perform_itemParts (node : NodeShape) :
    perform deeper location (node.itemParts.map Task.ofPart) =
      match node.itemPart? with
      | none => return []
      | some part => do
        let n ← visitPart deeper part (location.descend ["items"])
        return [(.items, n)] := by
  rcases h : node.itemPart? with - | part <;>
    simp [NodeShape.itemParts, h, perform, Task.ofPart, Step.keys]

theorem perform_propertyParts (node : NodeShape) :
    perform deeper location (node.propertyParts.map Task.ofPart)
      = (List.map fun p => (.property p.1, p.2))
          <$> visitProperties deeper location (node.properties.getD []) := by
  simp only [NodeShape.propertyParts, List.map_map]
  induction node.properties.getD [] with
  | nil => simp [visitProperties, perform]
  | cons p ps ih =>
    simp [visitProperties, perform, Task.ofPart, visitPart, Step.keys, ih]

@[simp] theorem propertiesIn_items (n : SchemaNode) (done : List (Step × SchemaNode)) :
    propertiesIn ((.items, n) :: done) = propertiesIn done := rfl

@[simp] theorem propertiesIn_properties (ns : List (String × SchemaNode)) :
    propertiesIn (ns.map fun p => (.property p.1, p.2)) = ns := by
  rw [propertiesIn, List.filterMap_map]
  exact List.filterMap_some

@[simp] theorem itemsIn_items (n : SchemaNode) (done : List (Step × SchemaNode)) :
    itemsIn ((.items, n) :: done) = some n := rfl

@[simp] theorem itemsIn_properties (ns : List (String × SchemaNode)) :
    itemsIn (ns.map fun p => (.property p.1, p.2)) = none := by
  simp [itemsIn, List.findSome?_map, Function.comp_def]

end Perform

/-! ### The own keywords of a node -/

section Own

variable (g : TypeGraph) (deeper : Visitor) (node : NodeShape) (location : Location)

/-- The `type` and `items` keywords of a node. -/
def visitTypeAndItems : Convert (Option SchemaType × Option SchemaNode) := do
  let (type, element) ← visitType deeper node.type location
  let items ← match element, node.items? with
    | some n, _ => pure (some n)
    | none, none => pure none
    | none, some items => some <$> visitItems deeper items (location.descend ["items"])
  return (type, items)

theorem visitTypeAndItems_eq :
    visitTypeAndItems deeper node location = (do
      reportType location node
      Convert.require (location.descend ["items"]) node.checkItems
      match node.itemPart? with
      | none => return (node.schemaType, none)
      | some part => do
        let n ← visitPart deeper part (location.descend ["items"])
        return (node.schemaType, some n)) := by
  rcases htype : node.type with - | (name | element | members)
  -- the element of an array expression goes first, and declared items are not read
  case some.arrayOf =>
    by_cases h : TypeExpr.hasBar element <;>
      simp [visitTypeAndItems, visitType, visitElement, reportType, NodeShape.checkItems,
        NodeShape.itemPart?, NodeShape.schemaType, Part.ofExpression, Convert.require,
        visitPart, htype, h]
  all_goals
    rcases hitems : node.items? with - | (- | b | x | s | js | ms) <;>
      simp [visitTypeAndItems, visitType, visitItems, reportType, NodeShape.checkItems,
        NodeShape.itemPart?, NodeShape.schemaType, Part.ofExpression, Convert.require,
        visitPart, htype, hitems]

/-- The `properties` and `required` keywords of a node. -/
def visitPropertiesAndRequired (type : Option SchemaType) :
    Convert (Option (List (String × SchemaNode)) × List String) := do
  let required ← Convert.require location (NodeShape.listed (node.members.get? "required"))
  visitDeclared g deeper type node.properties required location

theorem visitPropertiesAndRequired_eq :
    visitPropertiesAndRequired g deeper node location node.schemaType = (do
      Convert.require location node.checkRequired
      Convert.require location (node.checkProperties g)
      let ns ← visitProperties deeper location (node.properties.getD [])
      return (node.properties.map fun _ => ns, node.requiredNames)) := by
  rcases hreq : NodeShape.listed (node.members.get? "required") with cause | names
  -- the required names are read first, and it is over if they are no names
  · simp [visitPropertiesAndRequired, NodeShape.checkRequired, hreq, Convert.require, Except.map]
  · rcases hps : node.properties with - | ps
    · simp [visitPropertiesAndRequired, NodeShape.checkRequired, NodeShape.checkProperties,
        NodeShape.requiredNames, NodeShape.flagged, Names.addAll, Members.keys, visitDeclared,
        visitProperties, hreq, hps, Convert.require, Except.map]
    · by_cases h : !ps.isEmpty && !mayHaveProperties g node.schemaType <;>
        simp [visitPropertiesAndRequired, NodeShape.checkRequired, NodeShape.checkProperties,
          NodeShape.requiredNames, visitDeclared, hreq, hps, h, Convert.require, Except.map]

/-- The own keywords come in two halves. -/
theorem visitOwn_halves :
    visitOwn g deeper node location = (do
      let (type, items) ← visitTypeAndItems deeper node location
      let (properties, required) ← visitPropertiesAndRequired g deeper node location type
      return {
        reference := node.reference?
        type
        properties
        items
        required := if required.isEmpty then none else some required
        extra := node.facets }) := by
  simp only [visitOwn, visitTypeAndItems, visitPropertiesAndRequired, bind_assoc, pure_bind]
  apply bind_congr
  intro x
  rcases x with ⟨type, - | n⟩ <;> rcases node.items? with - | items <;> simp

/-- **Converting the own keywords of a node** is performing its tasks and
assembling what they give. -/
theorem visitOwn_eq :
    visitOwn g deeper node location
      = node.assemble <$> perform deeper location (node.tasks g location) := by
  rw [visitOwn_halves, visitTypeAndItems_eq]
  simp only [NodeShape.tasks, perform_append, perform_reports, perform_check, perform_itemParts,
    perform_propertyParts]
  rcases node.itemPart? with - | part <;>
    simp [visitPropertiesAndRequired_eq, NodeShape.assemble, NodeShape.frame, SchemaNode.fill,
      Function.comp_def]

end Own

/-! ### Which tasks a node has -/

namespace NodeShape

variable {g : TypeGraph} {n : NodeShape} {location : Location}

/-- A type that may have properties is `object` or declared. -/
theorem mayHaveProperties_iff :
    mayHaveProperties g n.schemaType = true ↔
      ∃ name, n.typeName? = some name ∧ (name = "object" ∨ name ∈ g.names) := by
  have hname : n.schemaType.bind SchemaType.single? = n.typeName? := rfl
  rw [mayHaveProperties, hname]
  rcases n.typeName? with - | name <;> simp [TypeGraph.contains_iff]

theorem part?_check (place : Location) (x : Except Malformation Unit) :
    (Task.check place x).filterMap Task.part? = [] := by
  rcases x with cause | ⟨⟩ <;> rfl

theorem part?_reports : (n.reports location).filterMap Task.part? = [] := by
  rcases h : n.type with - | (name | element | members) <;>
    simp [reports, h, Task.part?]

theorem part?_ofPart (parts : List (Step × Part)) :
    (parts.map Task.ofPart).filterMap Task.part? = parts := by
  induction parts with
  | nil => rfl
  | cons p ps ih => simpa [Task.ofPart, Task.part?] using ih

/-- The tasks of a node convert its parts, in order. -/
theorem part?_tasks : (n.tasks g location).filterMap Task.part? = n.parts := by
  simp only [tasks, parts, List.filterMap_append, part?_check, part?_reports, part?_ofPart,
    List.nil_append, List.append_nil]

theorem fail_mem_check {e : ConvertError} {place : Location} {x : Except Malformation Unit} :
    .fail e ∈ Task.check place x ↔ ∃ cause, x = .error cause ∧ e = .malformed place cause := by
  rcases x with cause | ⟨⟩ <;> simp [Task.check]

/-- A task that fails is a check that does not pass. -/
theorem fail_mem_tasks {e : ConvertError} :
    .fail e ∈ n.tasks g location ↔
      (∃ cause, n.checkItems = .error cause ∧ e = .malformed (location.descend ["items"]) cause)
        ∨ (∃ cause, n.checkRequired = .error cause ∧ e = .malformed location cause)
        ∨ ∃ cause, n.checkProperties g = .error cause ∧ e = .malformed location cause := by
  -- reports and parts do not fail by themselves
  have hreports : .fail e ∉ n.reports location := by
    rcases h : n.type with - | (name | element | members) <;> simp [reports, h]
  have hparts (ps : List (Step × Part)) : .fail e ∉ ps.map Task.ofPart := by
    simp [Task.ofPart]
  simp only [tasks, List.mem_append, hreports, hparts, fail_mem_check, false_or, or_false,
    or_assoc]

/-- A node passes its checks if and only if none of its tasks fails. -/
theorem sound_iff : n.Sound g ↔ ∀ e, .fail e ∉ n.tasks g location := by
  constructor
  · rintro ⟨hitems, hrequired, hproperties⟩ e he
    simp [fail_mem_tasks, hitems, hrequired, hproperties] at he
  · intro h
    simp only [fail_mem_tasks, not_or] at h
    refine ⟨?_, ?_, ?_⟩
    · rcases hc : n.checkItems with cause | ⟨⟩
      · exact absurd ⟨cause, hc, rfl⟩ (h _).1
      · rfl
    · rcases hc : n.checkRequired with cause | ⟨⟩
      · exact absurd ⟨cause, hc, rfl⟩ (h _).2.1
      · rfl
    · rcases hc : n.checkProperties g with cause | ⟨⟩
      · exact absurd ⟨cause, hc, rfl⟩ (h _).2.2
      · rfl

end NodeShape

end RamlSchema
