/-
RamlSchema/Options/Basic.lean

The options of a conversion, and settings that change some of them.

`Options` has a value for every field and `Settings` only for those that a
source mentions: a configuration file, or the flags of a command line.  A
source overrides field by field, so layering sources leaves each field with the
value of the last one that sets it (`override_override`).
-/
import RamlSchema.Json.Basic

namespace RamlSchema

/-- What is done where a type is reached again while it is being converted. -/
inductive CyclePolicy where
  /-- Write a reference to the type's own document. -/
  | reference
  /-- Give the type up. -/
  | error
deriving DecidableEq, Repr

namespace CyclePolicy

/-- The name of a policy. -/
def name : CyclePolicy → String
  | .reference => "reference"
  | .error => "error"

/-- The policy with a name. -/
def ofName? (s : String) : Option CyclePolicy :=
  if s = "reference" then some .reference else if s = "error" then some .error else none

theorem ofName?_name (p : CyclePolicy) : ofName? p.name = some p := by
  cases p <;> rfl

end CyclePolicy

/-- The dialect that documents declare by default. -/
def draft04Uri : String := "http://json-schema.org/draft-04/schema#"

/-- The options of a conversion. -/
structure Options where
  /-- What documents declare under `$schema`. -/
  schemaUri : String := draft04Uri
  onCycle : CyclePolicy := .reference
  /-- How deep nodes may nest, steps into referenced types included. -/
  maxDepth : Nat := 128
deriving DecidableEq, Repr

/-- Values for some of the options. -/
structure Settings where
  schemaUri : Option String := none
  onCycle : Option CyclePolicy := none
  maxDepth : Option Nat := none
deriving DecidableEq, Repr

namespace Settings

/-- Settings with those of a later source over them. -/
def override (s later : Settings) : Settings where
  schemaUri := later.schemaUri <|> s.schemaUri
  onCycle := later.onCycle <|> s.onCycle
  maxDepth := later.maxDepth <|> s.maxDepth

end Settings

namespace Options

/-- The options with the given settings over them. -/
def override (o : Options) (s : Settings) : Options where
  schemaUri := s.schemaUri.getD o.schemaUri
  onCycle := s.onCycle.getD o.onCycle
  maxDepth := s.maxDepth.getD o.maxDepth

theorem override_override (o : Options) (s later : Settings) :
    (o.override s).override later = o.override (s.override later) := by
  rcases s with ⟨u, c, d⟩
  rcases later with ⟨u', c', d'⟩
  cases u' <;> cases c' <;> cases d' <;> simp [override, Settings.override]

/-- The options as JSON. -/
def toJson (o : Options) : Json :=
  .obj [("schema-uri", .str o.schemaUri), ("on-cycle", .str o.onCycle.name),
    ("max-depth", .num (.whole o.maxDepth))]

end Options

end RamlSchema
