/-
RamlSchema/Yaml/Resolve.lean

From the nodes of a document to its value.

An alias stands for the node that carries its anchor; if several nodes carry an
anchor of that number, for the last of them, wherever that stands.  Collections
nest at most 128 deep, those behind aliases included, which also ends an alias
within its own anchor.  And aliases are followed at most a hundred times as
often as the document has nodes, by the count of `Node.eventCount`, so that a
short text cannot grow without bound.  A mapping has no two equal keys.
-/
import RamlSchema.Yaml.Node
import RamlSchema.Yaml.Scalar
import RamlSchema.Yaml.Token.Lexer

namespace RamlSchema.Yaml

/-- What resolving a node looks at. -/
structure Document where
  anchors : List (Nat × Node)
  /-- How often aliases may be followed. -/
  limit : Nat

/-- A resolution that counts the aliases it follows. -/
abbrev Resolution := StateT Nat Option

namespace Document

/-- The last node with an anchor. -/
def target? (d : Document) (anchor : Nat) : Option Node :=
  (d.anchors.reverse.lookup anchor)

/-- Counts an alias that is followed. -/
def follow (d : Document) : Resolution Unit := do
  let n ← get
  if n < d.limit then set (n + 1) else failure

/-- A value with the local tag of its node, if that has one. -/
def withTag (props : Properties) (v : Value) : Value :=
  match props.tag.map Tag.ofBytes with
  | some (.named (some name)) => .tagged name v
  | _ => v

/-- Items, by the resolution of nodes. -/
def resolveItems (resolve : Node → Resolution Value) : List Node → Resolution (List Value)
  | [] => return []
  | x :: xs => do
    let v ← resolve x
    return v :: (← resolveItems resolve xs)

/-- Entries, by the resolution of nodes, behind those in `es`.  The keys are
distinct. -/
def resolveEntries (resolve : Node → Resolution Value) (es : List (Value × Value)) :
    List (Node × Node) → Resolution (List (Value × Value))
  | [] => return es
  | (k, v) :: rest => do
    let k ← resolve k
    if es.any fun e => k.same e.1 then failure
    let v ← resolve v
    resolveEntries resolve (es ++ [(k, v)]) rest

/-- A node that is no alias, by the resolution of the nodes within it; `none`
where collections nest too deep already. -/
def resolveContent (within : Option (Node → Resolution Value)) : Node → Resolution Value
  | .alias _ => failure
  | .scalar props plain text =>
    StateT.lift (scalarValue? (props.tag.map Tag.ofBytes) plain text)
  | .sequence props xs =>
    match within with
    | some resolve => return withTag props (.seq (← resolveItems resolve xs))
    | none => failure
  | .mapping props es =>
    match within with
    | some resolve => return withTag props (.map (← resolveEntries resolve [] es))
    | none => failure

/-- A node, by the resolution of the nodes within it. -/
def resolveWith (d : Document) (within : Option (Node → Resolution Value)) (n : Node) :
    Resolution Value :=
  match n with
  | .alias anchor => do
    d.follow
    match d.target? anchor with
    | some n => resolveContent within n
    | none => failure
  | n => resolveContent within n

/-- A node whose collections nest at most `depth` deep. -/
def resolve (d : Document) : Nat → Node → Resolution Value
  | 0, n => d.resolveWith none n
  | depth + 1, n => d.resolveWith (some (d.resolve depth)) n

end Document

/-- How deep collections may nest. -/
def nestingLimit : Nat := 128

/-- The value of a document's root node. -/
def Value.ofNode? (n : Node) : Option Value :=
  let d : Document := { anchors := n.anchors, limit := 100 * n.eventCount }
  ((d.resolve nestingLimit n).run 0).map (·.1)

/-- The value that a text holds, if it holds just one document. -/
def Value.ofText? (text : String) : Option Value :=
  Token.ofText? text >>= Node.ofTokens? >>= Value.ofNode?

end RamlSchema.Yaml
