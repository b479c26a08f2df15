/-
RamlSchema/Raml/Expand.lean

From a type declaration in a RAML document to the tree of the type.

A declaration is short for a tree in which everything is spelled out.  A type
expression alone is the type of the tree, and no declaration at all is that of
a string.  In a mapping the facets are expanded one by one, in their order:

* `type` and `schema` are the same facet, and an expression is put into a list;
* a mapping as the type is a declaration inside the declaration, and its facets
  count where the outer one has none of the name;
* `properties` are declarations, and each gets a flag that says whether it is
  required: what the property says itself, or else that its key has no question
  mark at the end, which is taken off;
* `items` are a declaration without a name;
* all else is plain data.

Without a type, properties make an object, items an array, and anything else a
string.  A declaration with a name carries it, and displays it unless it says
otherwise.
-/
import RamlSchema.Decimal.Layout
import RamlSchema.Raml.Error
import RamlSchema.Yaml.Value

namespace RamlSchema.Raml

open Yaml

/-! ### Keys -/

/-- How a key writes a double. -/
def keyLayout : Decimal.Layout where
  leastPositional := -5
  greatestPositional := 15
  signedExponent := false

/-- A number as a key. -/
def numberKey : Number → String
  | .whole n => toString n
  | .double x =>
    if x.isNaN then ".nan"
    else if x.isInf then (if x < 0.0 then "-.inf" else ".inf")
    else String.ofList (keyLayout.render x)

/-- The text of a key. -/
def keyText (path : KeyPath) : Value → Except Error String
  | .str s => .ok s
  | .num n => .ok (numberKey n)
  | .bool true => .ok "true"
  | .bool false => .ok "false"
  | _ => .error (.unsupportedKey path)

/-- The name of a property, without the mark that makes it optional, and
whether it had that mark. -/
def propertyName (key : String) : String × Bool :=
  match key.toList.reverse with
  | '?' :: r => (String.ofList r.reverse, true)
  | _ => (key, false)

/-! ### Data -/

/-- A number as data; one that is not finite is nothing. -/
def numberData : Number → Json
  | .whole n => .num (.whole n)
  | .double x => if x.isFinite then .num (.double x) else .null

mutual

/-- A value as plain data. -/
def data (path : KeyPath) : Value → Except Error Json
  | .null => .ok .null
  | .bool b => .ok (.bool b)
  | .num n => .ok (numberData n)
  | .str s => .ok (.str s)
  | .seq xs => (dataItems path xs).map .arr
  | .map es => (dataEntries path [] es).map .obj
  | .tagged tag _ => .error (.taggedValue tag path)

/-- Items as plain data. -/
def dataItems (path : KeyPath) : List Value → Except Error (List Json)
  | [] => .ok []
  | x :: xs => do
    let j ← data path x
    let js ← dataItems path xs
    return j :: js

/-- Entries as members, written over `out`. -/
def dataEntries (path : KeyPath) (out : Members Json) :
    List (Value × Value) → Except Error (Members Json)
  | [] => .ok out
  | (k, v) :: es => do
    let key ← keyText path k
    let j ← data path v
    dataEntries path (out.insert key j) es

end

/-! ### Declarations -/

/-- An expression as the type of a tree. -/
def candidates (expression : String) : Json :=
  .arr [.str expression]

/-- The type of a mapping that gives none. -/
def defaultType (out : Members Json) : String :=
  if out.contains "properties" then "object"
  else if out.contains "items" then "array"
  else "string"

/-- The members with a type. -/
def withType (out : Members Json) : Members Json :=
  out.insertIfNew "type" (candidates (defaultType out))

/-- The members with those of an inner declaration where they have none of the
name. -/
def underlay (out inner : Members Json) : Members Json :=
  inner.foldl (fun out m => out.insertIfNew m.1 m.2) out

/-- The members that a declaration begins with. -/
def named (name : Option String) : Members Json :=
  match name with
  | some n => [("name", .str n)]
  | none => []

/-- The members with a name to display. -/
def displayed (name : Option String) (out : Members Json) : Members Json :=
  match name with
  | some n => out.insertIfNew "displayName" (.str n)
  | none => out

/-- The members of a property with its flag. -/
def flagged (isOptional : Bool) (facets : Members Json) : Members Json :=
  match facets.get? "required" with
  | some (.bool _) => facets
  | _ => facets.insert "required" (.bool (!isOptional))

mutual

/-- The members of the tree of a declaration. -/
def expand (name : Option String) (path : KeyPath) : Value → Except Error (Members Json)
  | .str expression => .ok (displayed name ((named name).insert "type" (candidates expression)))
  | .null => .ok (displayed name ((named name).insert "type" (candidates "string")))
  | .map es => (expandFacets path (named name) es).map (displayed name)
  | .tagged tag _ => .error (.taggedValue tag path)
  | .bool _ => .error (.notDeclaration path)
  | .num _ => .error (.notDeclaration path)
  | .seq _ => .error (.notDeclaration path)

/-- The facets of a declaration, written over `out`. -/
def expandFacets (path : KeyPath) (out : Members Json) :
    List (Value × Value) → Except Error (Members Json)
  | [] => .ok (withType out)
  | (k, v) :: es => do
    let key ← keyText path k
    let out ←
      if key = "type" || key = "schema" then expandType (path ++ [key]) out v
      else if key = "properties" then
        (expandProperties (path ++ [key]) v).map fun ps => out.insert "properties" (.obj ps)
      else if key = "items" then
        (expandItems (path ++ [key]) v).map fun j => out.insert "items" j
      else (data (path ++ [key]) v).map fun j => out.insert key j
    expandFacets path out es

/-- A type, written over `out` or, if it is a declaration, laid under it. -/
def expandType (path : KeyPath) (out : Members Json) : Value → Except Error (Members Json)
  | .str expression => .ok (out.insert "type" (candidates expression))
  | .map es => (expandFacets path [] es).map (underlay out)
  | v => (data path v).map fun j => out.insert "type" j

/-- Items. -/
def expandItems (path : KeyPath) : Value → Except Error Json
  | .str expression => .ok (candidates expression)
  | .map es => (expandFacets path [] es).map .obj
  | v => data path v

/-- Properties. -/
def expandProperties (path : KeyPath) : Value → Except Error (Members Json)
  | .map es => expandEntries path [] es
  | _ => .error (.notMapping path)

/-- Entries of properties, written over `out`. -/
def expandEntries (path : KeyPath) (out : Members Json) :
    List (Value × Value) → Except Error (Members Json)
  | [] => .ok out
  | (k, v) :: es => do
    let key ← keyText path k
    let (name, isOptional) := propertyName key
    let facets ← expand (some name) (path ++ [key]) v
    expandEntries path (out.insert name (.obj (flagged isOptional facets))) es

end

end RamlSchema.Raml
