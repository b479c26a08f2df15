/-
RamlSchema/Normalize/Progress.lean

How far a conversion has come.

`Progress` holds the types that are done, those that are being converted, the
outermost first, and two sets of names that decide which types get a document:
a type that was put in the place of a reference is nested and has none of its
own, unless a reference to it had to be written because of a cycle.

`Convert` is the monad of the conversion.  It keeps the progress where it
fails: what was done before a failure stays done.
-/
import RamlSchema.Names
import RamlSchema.Schema.Basic
import RamlSchema.Trace

namespace RamlSchema

/-- How far a conversion has come. -/
structure Progress where
  definitions : Members SchemaNode := []
  nested : List String := []
  inProgress : List String := []
  cycleTargets : List String := []
  trace : List Event := []
deriving Inhabited

namespace Progress

/-- The node of a type that is done. -/
def definition? (p : Progress) (name : String) : Option SchemaNode :=
  p.definitions.get? name

/-- Whether a type was put in the place of a reference. -/
def isNested (p : Progress) (name : String) : Bool :=
  p.nested.contains name

/-- Whether a type gets a document of its own. -/
def isTopLevel (p : Progress) (name : String) : Bool :=
  p.definitions.contains name && (!p.isNested name || p.cycleTargets.contains name)

/-- Reports an event. -/
def emit (p : Progress) (e : Event) : Progress :=
  { p with trace := p.trace ++ [e] }

/-- Marks a type as being converted. -/
def enter (p : Progress) (name : String) : Progress :=
  { p with inProgress := Names.add p.inProgress name }

/-- Takes that mark away. -/
def leave (p : Progress) (name : String) : Progress :=
  { p with inProgress := p.inProgress.filter (· ≠ name) }

/-- Records that a type is done. -/
def define (p : Progress) (name : String) (n : SchemaNode) : Progress :=
  { p.emit (.normalized name) with definitions := p.definitions.insert name n }

/-- Records that a type was put in the place of a reference.  Only the first
time is an event. -/
def nest (p : Progress) (name : String) (location : Location) : Progress :=
  if p.isNested name then p
  else { p.emit (.hoisted name location) with nested := p.nested ++ [name] }

/-- Records that a reference to a type was written. -/
def breakCycle (p : Progress) (name : String) (location : Location) : Progress :=
  { p.emit (.cycleBroken name location) with cycleTargets := Names.add p.cycleTargets name }

/-- The types on the way from a type in progress back to it. -/
def cycleThrough (p : Progress) (name : String) : List String :=
  p.inProgress.dropWhile (· ≠ name) ++ [name]

end Progress

/-- The monad of the conversion. -/
abbrev Convert := ExceptT ConvertError (StateM Progress)

namespace Convert

/-- Runs a step with a type marked as being converted, whether it fails or not. -/
def within {α : Type} (name : String) (x : Convert α) : Convert α :=
  ExceptT.mk do
    modify (·.enter name)
    let r ← x.run
    modify (·.leave name)
    return r

/-- Fails at a place where a node is malformed. -/
def require {α : Type} (location : Location) : Except Malformation α → Convert α
  | .ok a => return a
  | .error cause => throw (.malformed location cause)

end Convert

end RamlSchema
