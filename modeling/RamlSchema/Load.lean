/-
RamlSchema/Load.lean

Type graphs from text and from files.

A graph comes from a RAML document, or from a JSON object whose members are the
trees of the types.  Loading a document reports each declaration; loading an
object reports nothing.  A file is an object if the extension of its name is
`json` in any case, and a document otherwise.
-/
import RamlSchema.Files.Disk
import RamlSchema.Files.Path
import RamlSchema.Json.Reader
import RamlSchema.Raml.Document
import RamlSchema.Trace

namespace RamlSchema

/-- The formats that graphs are loaded from. -/
inductive Format where
  | raml
  | json
deriving DecidableEq, Repr

/-- The format of the file at the end of a path. -/
def Format.ofPath (path : String) : Format :=
  match Path.extension? path with
  | some e => if e.toList.map Char.toLower = "json".toList then .json else .raml
  | none => .raml

/-- Why a text is no graph. -/
inductive SourceError where
  | raml (e : Raml.Error)
  | json (e : Json.ReadError)
deriving DecidableEq, Repr

/-- Why a file gives no graph. -/
inductive LoadError where
  | unreadable (path : String) (cause : ReadFailure)
  | source (e : SourceError)
deriving DecidableEq, Repr

/-- The result of loading a graph, with the events on the way. -/
structure Loading (ε : Type) where
  result : Except ε TypeGraph
  trace : List Event

namespace Loading

/-- Loads a RAML document. -/
def ofRaml (text : String) : Loading SourceError :=
  match Raml.Document.parse text with
  | .error e => { result := .error (.raml e), trace := [] }
  | .ok d =>
    let (r, g) := d.declareAll.run.run ∅
    { result := match r with
        | .ok () => .ok g
        | .error e => .error (.raml e)
      trace := g.names.map .loaded }

/-- Loads a JSON object of trees. -/
def ofJson (text : String) : Loading SourceError where
  result := match Json.readObject text with
    | .ok ms => .ok (TypeGraph.ofList ms)
    | .error e => .error (.json e)
  trace := []

/-- Loads a text in a format. -/
def ofText (f : Format) (text : String) : Loading SourceError :=
  match f with
  | .raml => ofRaml text
  | .json => ofJson text

/-- Loads the file at the end of a path. -/
def ofFile {m : Type → Type} [Monad m] [Disk m] (path : String) : m (Loading LoadError) := do
  match ← readText path with
  | .error cause => return { result := .error (.unreadable path cause), trace := [] }
  | .ok text =>
    let l := ofText (Format.ofPath path) text
    return { result := l.result.mapError .source, trace := l.trace }

end Loading

/-- What is said of a file that cannot be read. -/
def unreadableMessage (path : String) : ReadFailure → String
  | .missing => "Input file not found: " ++ path
  | cause => "Failed to read " ++ path ++ ": " ++ cause.message

end RamlSchema
