/-
RamlSchema/Raml/Error.lean

Why a RAML document is refused.

A place in a document is named by the section and the keys that lead to it.
-/

namespace RamlSchema.Raml

/-- The keys that lead to a place in a document. -/
abbrev KeyPath := List String

/-- A path as messages name it. -/
def KeyPath.text (p : KeyPath) : String :=
  "/".intercalate p

/-- The words that a document has to begin with. -/
def header : String := "#%RAML 1.0"

/-- Why a RAML document is refused. -/
inductive Error where
  /-- The first line, without blanks around it, does not begin as it has to. -/
  | noHeader (line : String)
  /-- The text is not YAML. -/
  | notYaml
  | rootNotMapping
  /-- The document refers to libraries. -/
  | usesLibraries
  | sectionNotMapping (name : String)
  /-- A type is declared twice. -/
  | duplicateType (path : KeyPath)
  /-- A declaration is neither an expression nor a mapping. -/
  | notDeclaration (path : KeyPath)
  | notMapping (path : KeyPath)
  /-- A value has a local tag. -/
  | taggedValue (tag : String) (path : KeyPath)
  /-- A key is no string, number or truth value. -/
  | unsupportedKey (path : KeyPath)
deriving DecidableEq, Repr

/-- A text between backquotes. -/
def backquoted (s : String) : String :=
  "\x60" ++ s ++ "\x60"

/-- The wording of an error, where it has one of its own. -/
def Error.message : Error → String
  | .noHeader line =>
    "expected a " ++ backquoted header ++ " header line, found " ++ backquoted line
  | .notYaml => "not a YAML document"
  | .rootNotMapping => "document root must be a mapping"
  | .usesLibraries => backquoted "uses" ++ " libraries are not supported"
  | .sectionNotMapping name => backquoted name ++ " must be a mapping"
  | .duplicateType path => "duplicate type declaration " ++ backquoted path.text
  | .notDeclaration path =>
    "type declaration at " ++ path.text ++ " must be a type expression or a mapping"
  | .notMapping path => path.text ++ " must be a mapping"
  | .taggedValue tag path => backquoted ("!" ++ tag) ++ " at " ++ path.text ++ " is not supported"
  | .unsupportedKey path => "unsupported mapping key under " ++ path.text

end RamlSchema.Raml
