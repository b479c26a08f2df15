/-
RamlSchema/TypeGraph.lean

The input of the conversion: named type declarations in the order in which
they were declared.

A declaration is a name with a tree, the serialized form of the type.  Names
are distinct, which `nodup_names` carries along with the declarations:
inserting a name that is present replaces its tree and keeps its place.
-/
import RamlSchema.Json.Basic

namespace RamlSchema

/-- A named type with its tree. -/
structure Declaration where
  name : String
  tree : Json

/-- Declarations with distinct names, in order. -/
structure TypeGraph where
  trees : Members Json
  nodup_names : trees.keys.Nodup

namespace TypeGraph

/-- The graph without declarations. -/
def empty : TypeGraph := ⟨[], List.nodup_nil⟩

instance : EmptyCollection TypeGraph := ⟨empty⟩

instance : Inhabited TypeGraph := ⟨empty⟩

/-- Adds a declaration, or replaces the one with its name. -/
def insert (g : TypeGraph) (d : Declaration) : TypeGraph where
  trees := g.trees.insert d.name d.tree
  nodup_names := Members.nodup_keys_insert g.nodup_names d.name d.tree

/-- The graph of a list of declarations, inserted in order. -/
def ofDeclarations (ds : List Declaration) : TypeGraph :=
  ds.foldl insert empty

/-- The graph of a list of names with their trees. -/
def ofList (entries : List (String × Json)) : TypeGraph :=
  ofDeclarations (entries.map fun e => ⟨e.1, e.2⟩)

/-- The tree declared under a name. -/
def tree? (g : TypeGraph) (name : String) : Option Json :=
  g.trees.get? name

/-- The declaration with a name. -/
def get? (g : TypeGraph) (name : String) : Option Declaration :=
  (g.tree? name).map (Declaration.mk name)

/-- Whether a name is declared. -/
def contains (g : TypeGraph) (name : String) : Bool :=
  g.trees.contains name

/-- The declared names in order. -/
def names (g : TypeGraph) : List String :=
  g.trees.keys

/-- The declarations in order. -/
def toList (g : TypeGraph) : List Declaration :=
  g.trees.map fun e => ⟨e.1, e.2⟩

/-- The number of declarations. -/
def size (g : TypeGraph) : Nat :=
  g.trees.length

/-- Whether nothing is declared. -/
def isEmpty (g : TypeGraph) : Bool :=
  g.trees.isEmpty

/-- Whether two graphs declare the same trees under the same names, in any
order. -/
def same (g h : TypeGraph) : Bool :=
  Json.same (.obj g.trees) (.obj h.trees)

/-! ### Names -/

theorem contains_iff (g : TypeGraph) (name : String) :
    g.contains name = true ↔ name ∈ g.names :=
  Members.contains_iff_mem_keys g.trees name

theorem names_insert (g : TypeGraph) (d : Declaration) :
    (g.insert d).names = if d.name ∈ g.names then g.names else g.names ++ [d.name] :=
  Members.keys_insert g.trees d.name d.tree

end TypeGraph

end RamlSchema
