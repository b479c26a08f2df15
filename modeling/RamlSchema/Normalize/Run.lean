/-
RamlSchema/Normalize/Run.lean

The conversion of a whole graph.

The types are converted in the order of their declaration, except those that
are done already because an earlier one refers to them.  A type that fails is
recorded and the run goes on.  The documents are those of the types at top
level, in the order of declaration, each with its dialect.
-/
import RamlSchema.Normalize.Visit

namespace RamlSchema

/-- A type that could not be converted. -/
structure Failure where
  name : String
  error : ConvertError
deriving DecidableEq, Repr

/-- What a run has come to. -/
structure Outcome where
  documents : Members SchemaNode
  failures : List Failure
  trace : List Event

/-- The documents of the types at top level. -/
def Progress.documents (g : TypeGraph) (o : Options) (p : Progress) : Members SchemaNode :=
  g.names.filterMap fun name =>
    if p.isTopLevel name then
      (p.definition? name).map fun n => (name, { n with schema := some o.schemaUri })
    else none

/-- Converts the type `name` unless it is done. -/
def normalizeNext (g : TypeGraph) (o : Options) (s : Progress × List Failure) (name : String) :
    Progress × List Failure :=
  if (s.1.definition? name).isSome then s
  else
    match (normalizeType g o name).run.run s.1 with
    | (.ok _, p) => (p, s.2)
    | (.error error, p) => (p.emit (.skipped name error), s.2 ++ [{ name, error }])

/-- Converts all types of a graph. -/
def normalize (g : TypeGraph) (o : Options) : Outcome :=
  let (p, failures) := g.names.foldl (normalizeNext g o) ({}, [])
  { documents := p.documents g o
    failures
    trace := p.trace }

end RamlSchema
