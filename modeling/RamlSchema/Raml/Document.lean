/-
RamlSchema/Raml/Document.lean

RAML documents, and the types that they declare.

A document is a YAML mapping, or nothing, under a first line that says what it
is.  The first line is looked at before all else.  Types are declared in the
sections `types` and `schemas`, in this order, and no name twice in them.  What
was declared before an error stays in the state of `Loader`.
-/
import RamlSchema.Raml.Expand
import RamlSchema.Text.Blank
import RamlSchema.TypeGraph
import RamlSchema.Yaml.Resolve

namespace RamlSchema.Raml

open Yaml

/-- The entries of a document's root. -/
structure Document where
  entries : List (Value × Value)

/-- The first line of a text, without the blanks around it. -/
def firstLine (text : String) : String :=
  Text.trim (String.ofList (text.toList.takeWhile (· ≠ '\n')))

/-- The document that a text holds. -/
def Document.parse (text : String) : Except Error Document :=
  let line := firstLine text
  if !header.toList.isPrefixOf line.toList then .error (.noHeader line)
  else
    match Value.ofText? text with
    | none => .error .notYaml
    | some (.map es) =>
      if (Value.entry? "uses" es).isSome then .error .usesLibraries else .ok ⟨es⟩
    | some .null => .ok ⟨[]⟩
    | some _ => .error .rootNotMapping

/-- Loading keeps the types declared so far. -/
abbrev Loader := ExceptT Error (StateM TypeGraph)

/-- Declares the types of a section. -/
def declare (name : String) : List (Value × Value) → Loader Unit
  | [] => return ()
  | (k, v) :: es => do
    let typeName ← ExceptT.mk (pure (keyText [name] k))
    let path := [name, typeName]
    if (← get).contains typeName then throw (.duplicateType path)
    let tree ← ExceptT.mk (pure (expand (some typeName) path v))
    modify (·.insert ⟨typeName, .obj tree⟩)
    declare name es

/-- The sections with declarations. -/
def sections : List String := ["types", "schemas"]

/-- Declares the types of a document's section, if it is there. -/
def Document.declareSection (d : Document) (name : String) : Loader Unit :=
  match Value.entry? name d.entries with
  | none => return ()
  | some .null => return ()
  | some (.map es) => declare name es
  | some _ => throw (.sectionNotMapping name)

/-- Declares the types of a document. -/
def Document.declareAll (d : Document) : Loader Unit :=
  sections.forM d.declareSection

end RamlSchema.Raml
