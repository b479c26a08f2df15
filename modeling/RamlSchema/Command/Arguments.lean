/-
RamlSchema/Command/Arguments.lean

The arguments of the command line.

An argument that starts with two dashes names one switch, and its value may
follow behind `=`.  An argument that starts with one dash is a row of letters,
each a switch; what follows a switch that takes a value is that value, behind
`=` or at once.  A switch whose value is not given in its own argument takes the
next argument, which then must not look like a switch.  Arguments are taken in
order, no switch twice, and the first that is wrong or that asks for the version
decides.
-/
import RamlSchema.Options.Basic

namespace RamlSchema

/-- The switches that take a value. -/
inductive Parameter where
  | file
  | output
  | config
  | onCycle
  | maxDepth
  | schemaUri
deriving DecidableEq, Repr

/-- The switches. -/
inductive Switch where
  | parameter (p : Parameter)
  | verbose
  | version
deriving DecidableEq, Repr

/-- Why arguments are refused. -/
inductive UsageError where
  /-- No switch has this name. -/
  | unknown (name : String)
  /-- An argument is neither a switch nor a value. -/
  | unexpected (argument : String)
  /-- A switch is given twice. -/
  | repeated (s : Switch)
  /-- A switch that takes no value has one. -/
  | needless (s : Switch)
  /-- A switch has no value. -/
  | withoutValue (p : Parameter)
  /-- A switch cannot have this value. -/
  | wrongValue (p : Parameter) (value : String)
  /-- No input is named. -/
  | withoutInput
deriving DecidableEq, Repr

/-- What the command line asks for. -/
structure Arguments where
  /-- The file with the declarations. -/
  file : String
  /-- The directory for the documents. -/
  output : String := "out"
  /-- A file with options. -/
  config : Option String := none
  /-- The options that are given by switches. -/
  settings : Settings := {}
  /-- Whether everything is logged. -/
  verbose : Bool := false
deriving DecidableEq, Repr

/-- Why reading arguments ends early. -/
inductive Halt where
  | version
  | usage (e : UsageError)
deriving DecidableEq, Repr

namespace Switch

/-- The switch with a long name. -/
def ofName? (name : String) : Option Switch :=
  if name = "file" then some (.parameter .file)
  else if name = "output" then some (.parameter .output)
  else if name = "config" then some (.parameter .config)
  else if name = "on-cycle" then some (.parameter .onCycle)
  else if name = "max-depth" then some (.parameter .maxDepth)
  else if name = "schema-uri" then some (.parameter .schemaUri)
  else if name = "verbose" then some .verbose
  else if name = "version" then some .version
  else none

/-- The switch with a letter. -/
def ofLetter? (c : Char) : Option Switch :=
  if c = 'f' then some (.parameter .file)
  else if c = 'o' then some (.parameter .output)
  else if c = 'v' then some .verbose
  else if c = 'V' then some .version
  else none

end Switch

namespace Arguments

/-! ### Values -/

/-- A count in decimal, with or without a plus sign, below 2⁶⁴. -/
def count? (value : String) : Option Nat :=
  let cs := match value.toList with
    | '+' :: cs => cs
    | cs => cs
  if cs.isEmpty || !cs.all Char.isDigit then none
  else
    let n := cs.foldl (fun n c => 10 * n + (c.toNat - '0'.toNat)) 0
    if n < Nat.pow 2 64 then some n else none

/-- What has been given so far. -/
structure Given where
  file : Option String := none
  output : Option String := none
  config : Option String := none
  settings : Settings := {}
  verbose : Bool := false
deriving DecidableEq, Repr

namespace Given

/-- A path that is given: not twice, and not empty. -/
def takePath (p : Parameter) (old : Option String) (value : String) :
    Except Halt (Option String) :=
  if old.isSome then .error (.usage (.repeated (.parameter p)))
  else if value.isEmpty then .error (.usage (.wrongValue p value))
  else .ok (some value)

/-- A value that is given: not twice, and one that can be read. -/
def takeRead {α : Type} (p : Parameter) (old : Option α) (read : String → Option α)
    (value : String) : Except Halt (Option α) :=
  if old.isSome then .error (.usage (.repeated (.parameter p)))
  else
    match read value with
    | some v => .ok (some v)
    | none => .error (.usage (.wrongValue p value))

/-- Takes a parameter with its value. -/
def take (g : Given) (p : Parameter) (value : String) : Except Halt Given :=
  match p with
  | .file => (takePath p g.file value).map fun v => { g with file := v }
  | .output => (takePath p g.output value).map fun v => { g with output := v }
  | .config => (takePath p g.config value).map fun v => { g with config := v }
  | .onCycle => (takeRead p g.settings.onCycle CyclePolicy.ofName? value).map fun v =>
      { g with settings := { g.settings with onCycle := v } }
  | .maxDepth => (takeRead p g.settings.maxDepth count? value).map fun v =>
      { g with settings := { g.settings with maxDepth := v } }
  | .schemaUri => (takeRead p g.settings.schemaUri some value).map fun v =>
      { g with settings := { g.settings with schemaUri := v } }

/-- Takes the switch that asks for a full log. -/
def takeVerbose (g : Given) : Except Halt Given :=
  if g.verbose then .error (.usage (.repeated .verbose)) else .ok { g with verbose := true }

/-- The arguments, once all is given. -/
def finish (g : Given) : Except Halt Arguments :=
  match g.file with
  | none => .error (.usage .withoutInput)
  | some file => .ok {
      file
      output := g.output.getD "out"
      config := g.config
      settings := g.settings
      verbose := g.verbose }

end Given

/-! ### Switches -/

/-- What an argument comes to, and the parameter that still wants a value. -/
abbrev Taken := Given × Option Parameter

/-- Takes a switch given by its long name, with the value behind `=` if there is one. -/
def takeLong (g : Given) (name : String) (value : Option String) : Except Halt Taken :=
  match Switch.ofName? name, value with
  | none, _ => .error (.usage (.unknown name))
  | some (.parameter p), some v => (g.take p v).map (·, none)
  | some (.parameter p), none => .ok (g, some p)
  | some s, some _ => .error (.usage (.needless s))
  | some .verbose, none => g.takeVerbose.map (·, none)
  | some .version, none => .error .version

/-- Takes the switches of a row of letters. -/
def takeLetters (g : Given) : List Char → Except Halt Taken
  | [] => .ok (g, none)
  | c :: cs =>
    match Switch.ofLetter? c with
    | none => .error (.usage (.unknown (String.ofList [c])))
    | some .version => .error .version
    | some .verbose =>
      match g.takeVerbose with
      | .error e => .error e
      | .ok g => takeLetters g cs
    | some (.parameter p) =>
      match cs with
      | [] => .ok (g, some p)
      | '=' :: v => (g.take p (String.ofList v)).map (·, none)
      | v => (g.take p (String.ofList v)).map (·, none)

/-- Whether an argument can be the value of the switch before it. -/
def isValue (argument : String) : Bool :=
  match argument.toList with
  | '-' :: _ :: _ => false
  | _ => true

/-- Takes an argument that starts with a dash. -/
def takeArgument (g : Given) (argument : String) : Except Halt Taken :=
  match argument.toList with
  | '-' :: '-' :: cs =>
    takeLong g (String.ofList (cs.takeWhile (· ≠ '=')))
      (match cs.dropWhile (· ≠ '=') with
        | [] => none
        | _ :: v => some (String.ofList v))
  | '-' :: c :: cs => takeLetters g (c :: cs)
  | _ => .error (.usage (.unexpected argument))

/-- Takes arguments in order.  Behind a lone pair of dashes none may follow. -/
def takeAll : Given → List String → Except Halt Given
  | g, [] => .ok g
  | g, argument :: rest =>
    if argument = "--" then
      match rest with
      | [] => .ok g
      | a :: _ => .error (.usage (.unexpected a))
    else
      match takeArgument g argument with
      | .error e => .error e
      | .ok (g, none) => takeAll g rest
      | .ok (g, some p) =>
        match rest with
        | [] => .error (.usage (.withoutValue p))
        | value :: rest =>
          if isValue value then
            match g.take p value with
            | .error e => .error e
            | .ok g => takeAll g rest
          else .error (.usage (.withoutValue p))

/-- The arguments that a command line gives. -/
def read (arguments : List String) : Except Halt Arguments :=
  takeAll {} arguments >>= Given.finish

end Arguments

namespace Parameter

/-- The long name of a parameter. -/
def name : Parameter → String
  | .file => "file"
  | .output => "output"
  | .config => "config"
  | .onCycle => "on-cycle"
  | .maxDepth => "max-depth"
  | .schemaUri => "schema-uri"

theorem ofName?_name (p : Parameter) : Switch.ofName? p.name = some (.parameter p) := by
  cases p <;> decide

end Parameter

/-- The long name of a switch. -/
def Switch.name : Switch → String
  | .parameter p => p.name
  | .verbose => "verbose"
  | .version => "version"

theorem Switch.ofName?_name (s : Switch) : Switch.ofName? s.name = some s := by
  cases s with
  | parameter p => exact p.ofName?_name
  | verbose => decide
  | version => decide

/-- A refusal in words. -/
def UsageError.message : UsageError → String
  | .unknown name => "unknown switch: " ++ name
  | .unexpected argument => "unexpected argument: " ++ argument
  | .repeated s => "given twice: --" ++ s.name
  | .needless s => "takes no value: --" ++ s.name
  | .withoutValue p => "needs a value: --" ++ p.name
  | .wrongValue p value => "wrong value for --" ++ p.name ++ ": " ++ value
  | .withoutInput => "needed: --file"

end RamlSchema
