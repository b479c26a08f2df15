/-
RamlSchema/Command/Run.lean

What the command line does.

A conversion reads its options, loads the graph, makes the output directory and
saves one document after another, up to the first that cannot be saved.  Before
the directory is made no file is touched.  Types that could not be converted are
told at the end, when every document is saved.

Options come from the defaults, a file of options over them and the switches
over both.  What happened is a `Report`; its lines and its exit status follow
from it, and a run without a problem is one that ends with status zero
(`exitStatus_eq_zero_iff`).
-/
import RamlSchema.Command.Arguments
import RamlSchema.Load
import RamlSchema.Normalize.Run
import RamlSchema.Options.Reader

namespace RamlSchema

/-- Why a conversion has no full success. -/
inductive Problem where
  | openConfig (path : String)
  | parseConfig (path : String)
  | load (path : String) (e : LoadError)
  | makeOutput (path : String)
  | temporary (directory : String)
  | replacement (path : String)
  /-- Some types could not be converted. -/
  | failures (failed total : Nat)

/-- A problem in words. -/
def Problem.message : Problem → String
  | .openConfig path => "Failed to open config file: " ++ path
  | .parseConfig path => "Failed to parse config from: " ++ path
  | .load path _ => "Failed to load types from: " ++ path
  | .makeOutput path => "Failed to create output directory: " ++ path
  | .temporary directory => "Failed to create temp file in: " ++ directory
  | .replacement path => "Failed to save output file: " ++ path
  | .failures failed total =>
    toString failed ++ " of " ++ toString total ++ " types could not be converted"

/-- What a conversion came to. -/
structure Report where
  /-- The paths of the documents that were saved, in order. -/
  saved : List String := []
  /-- The types that are told to have failed. -/
  failures : List Failure := []
  problem : Option Problem := none
  trace : List Event := []

namespace Report

/-- The lines of standard output. -/
def outputLines (r : Report) : List String :=
  r.saved.map ("Saved " ++ ·)

/-- The lines of standard error, apart from the log. -/
def errorLines (r : Report) : List String :=
  r.failures.map (fun f => "Error: type \x60" ++ f.name ++ "\x60 skipped: " ++ f.error.message)
    ++ (r.problem.map fun p => "Error: " ++ p.message).toList

/-- The exit status. -/
def exitStatus (r : Report) : Nat :=
  if r.problem.isSome then 1 else 0

theorem exitStatus_eq_zero_iff (r : Report) : r.exitStatus = 0 ↔ r.problem = none := by
  cases h : r.problem <;> simp [exitStatus, h]

end Report

/-! ### Steps of a conversion -/

namespace Arguments

/-- The options of a conversion, `config` being those of the file. -/
def optionsOver (a : Arguments) (config : Settings) : Options :=
  (({} : Options).override config).override a.settings

/-- The switches go over the file field by field. -/
theorem optionsOver_eq (a : Arguments) (config : Settings) :
    a.optionsOver config = ({} : Options).override (config.override a.settings) :=
  Options.override_override _ _ _

end Arguments

variable {m : Type → Type} [Monad m] [Disk m]

/-- The settings in a file. -/
def readConfig (path : String) : m (Except Problem Settings) := do
  match ← Disk.read path with
  | .ok bytes => return (Settings.ofBytes bytes).mapError fun _ => .parseConfig path
  | .error .directory => return .error (.parseConfig path)
  | .error .notText => return .error (.parseConfig path)
  | .error _ => return .error (.openConfig path)

/-- The options of a conversion. -/
def readOptions (a : Arguments) : m (Except Problem Options) := do
  match a.config with
  | none => return .ok (a.optionsOver {})
  | some path => return (← readConfig path).map a.optionsOver

/-- The file for the document of a type. -/
def documentPath (output typeName : String) : String :=
  Path.join output (documentFileName typeName)

/-- What the file of a document holds. -/
def documentContent (n : SchemaNode) : ByteArray :=
  (n.prettyText ++ "\n").toUTF8

/-- Saves a document. -/
def saveDocument (path : String) (n : SchemaNode) : m (Except Problem Unit) := do
  match ← Disk.save path (documentContent n) with
  | .ok () => return .ok ()
  | .error .temporary => return .error (.temporary (Path.directory path))
  | .error .replacement => return .error (.replacement path)

/-- Saves documents in order up to the first that cannot be saved, and gives the
paths of those saved. -/
def saveDocuments (output : String) :
    List (String × SchemaNode) → m (List String × Option Problem)
  | [] => return ([], none)
  | (typeName, n) :: ds => do
    let path := documentPath output typeName
    match ← saveDocument path n with
    | .error p => return ([], some p)
    | .ok () =>
      let (saved, problem) ← saveDocuments output ds
      return (path :: saved, problem)

/-- Saves the outcome of a conversion of `total` types. -/
def saveOutcome (output : String) (total : Nat) (r : Outcome) : m Report := do
  if ← Disk.makeDirectories output then
    match ← saveDocuments output r.documents with
    | (saved, some p) => return { saved, problem := some p }
    | (saved, none) =>
      if r.failures.isEmpty then return { saved }
      else return {
        saved
        failures := r.failures
        problem := some (.failures r.failures.length total) }
  else return { problem := some (.makeOutput output) }

/-- Converts the types of a file to documents. -/
def convert (a : Arguments) : m Report := do
  match ← readOptions a with
  | .error p => return { problem := some p }
  | .ok options =>
    let l ← Loading.ofFile a.file
    match l.result with
    | .error e => return { problem := some (.load a.file e), trace := l.trace }
    | .ok g =>
      let r := normalize g options
      let report ← saveOutcome a.output g.size r
      return { report with trace := l.trace ++ r.trace }

/-! ### The command line -/

/-- What a run of the command line leaves: its exit status and its lines. -/
structure Reply where
  exitStatus : Nat
  outputLines : List String := []
  /-- The lines of the log, which come before those of errors. -/
  logLines : List String := []
  errorLines : List String := []

/-- The name of the program and its version. -/
def versionLine : String := "raml2jsonschema 0.1.0"

/-- The events that a log shows: warnings, and the others only on request. -/
def logged (verbose : Bool) (trace : List Event) : List Event :=
  trace.filter fun e => verbose || e.level = .warn

/-- Runs the command line. -/
def runCommand (arguments : List String) : m Reply := do
  match Arguments.read arguments with
  | .error .version => return { exitStatus := 0, outputLines := [versionLine] }
  | .error (.usage e) => return { exitStatus := 2, errorLines := [e.message] }
  | .ok a =>
    let r ← convert a
    return {
      exitStatus := r.exitStatus
      outputLines := r.outputLines
      logLines := (logged a.verbose r.trace).map Event.logLine
      errorLines := r.errorLines }

end RamlSchema
