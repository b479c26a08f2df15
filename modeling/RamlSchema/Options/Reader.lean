/-
RamlSchema/Options/Reader.lean

Options from JSON text.

They stand in an object under the names of the fields, or in an array in the
order of the fields.  Fields that are left out have their defaults.  An object
may hold members of other names, whose values are only skimmed, but none of the
three names twice.  A depth is a whole number below 2⁶⁴.  A policy is written as
its name, or as an object whose one key is the name and whose value is `null`.
-/
import RamlSchema.Json.LooseText
import RamlSchema.Json.Reader
import RamlSchema.Options.Basic

namespace RamlSchema

open Json

namespace Settings

/-! ### Values of fields -/

/-- A string. -/
def readUri (cs : List Char) : Read String :=
  match skipBlanks cs with
  | [] => .error .endOfText
  | '\x22' :: r => (readString .full r).map fun (t, rest) => (String.ofList t, rest)
  | cs => .error (wrongKindAt cs)

/-- A whole number of sixty-four bits. -/
def readDepth (cs : List Char) : Except ReadError (Nat × List Char) := do
  match skipBlanks cs with
  | [] => .error .endOfText
  | c :: r =>
    if c = '-' || c.isDigit then
      match ← readNumber .full (c :: r) with
      | (.num (.whole (.ofNat n)), rest) => return (n, rest)
      | _ => .error .wrongKind
    else .error (wrongKindAt (c :: r))

/-- The name of a policy. -/
def readPolicyName (cs : List Char) : Except ReadError (CyclePolicy × List Char) := do
  let (name, rest) ← readUri cs
  match CyclePolicy.ofName? name with
  | some p => return (p, rest)
  | none => .error .wrongKind

/-- The word `null`. -/
def readNull (cs : List Char) : Read Unit :=
  match skipBlanks cs with
  | [] => .error .endOfText
  | 'n' :: r => readWord () ['u', 'l', 'l'] r
  | cs => .error (wrongKindAt cs)

/-- A policy, in either of its forms. -/
def readPolicy (cs : List Char) : Except ReadError (CyclePolicy × List Char) := do
  match skipBlanks cs with
  | [] => .error .endOfText
  | '\x22' :: r => readPolicyName ('\x22' :: r)
  | '\x7b' :: r =>
    let (p, r) ← readPolicyName r
    let ((), r) ← readColon r
    let ((), r) ← readNull r
    match skipBlanks r with
    | [] => .error .endOfText
    | '\x7d' :: r => return (p, r)
    | _ => .error .malformed
  | _ => .error .malformed

/-! ### Fields -/

/-- Reads the value of `schema-uri` into the settings. -/
def takeUri (s : Settings) (cs : List Char) : Read Settings :=
  (readUri cs).map fun (u, rest) => ({ s with schemaUri := some u }, rest)

/-- Reads the value of `on-cycle` into the settings. -/
def takePolicy (s : Settings) (cs : List Char) : Read Settings :=
  (readPolicy cs).map fun (p, rest) => ({ s with onCycle := some p }, rest)

/-- Reads the value of `max-depth` into the settings. -/
def takeDepth (s : Settings) (cs : List Char) : Read Settings :=
  (readDepth cs).map fun (d, rest) => ({ s with maxDepth := some d }, rest)

/-- Reads a value behind its colon, unless the field has been read before. -/
def takeOnce (present : Bool) (take : Settings → List Char → Read Settings) (s : Settings)
    (cs : List Char) : Except ReadError (Settings × List Char) := do
  if present then .error .wrongKind
  else
    let ((), cs) ← readColon cs
    take s cs

/-- Reads a member of an object of options. -/
def takeMember (s : Settings) (cs : List Char) : Except ReadError (Settings × List Char) := do
  let (name, cs) ← readKey .full cs
  if name = "schema-uri" then takeOnce s.schemaUri.isSome takeUri s cs
  else if name = "on-cycle" then takeOnce s.onCycle.isSome takePolicy s cs
  else if name = "max-depth" then takeOnce s.maxDepth.isSome takeDepth s cs
  else
    let ((), cs) ← readColon cs
    let ((), cs) ← skimValue cs
    return (s, cs)

/-- Reads the end of an array of options behind its last field. -/
def readClosing (s : Settings) (cs : List Char) : Read Settings :=
  match skipBlanks cs with
  | [] => .error .endOfText
  | ']' :: r => .ok (s, r)
  | _ => .error .malformed

/-- Reads the items of an array of options that stand behind a comma. -/
def takeFurther : List (Settings → List Char → Read Settings) → Settings → List Char →
    Except ReadError (Settings × List Char)
  | [], s, cs => readClosing s cs
  | take :: more, s, cs => do
    match skipBlanks cs with
    | ',' :: r =>
      match skipBlanks r with
      | ']' :: _ => .error .malformed
      | r =>
        let (s, r) ← take s r
        takeFurther more s r
    | cs => readClosing s cs

/-- Reads an array of options from behind its opening bracket. -/
def readArray (cs : List Char) : Except ReadError (Settings × List Char) := do
  match skipBlanks cs with
  | ']' :: r => return ({}, r)
  | [] => .error .endOfText
  | cs =>
    let (s, cs) ← takeUri {} cs
    takeFurther [takePolicy, takeDepth] s cs

/-- The settings that a text holds. -/
def read (text : List Char) : Except ReadError Settings :=
  match skipBlanks text with
  | [] => .error .endOfText
  | '[' :: r => readArray r >>= expectEnd
  | '\x7b' :: r => readContainer '\x7d' takeMember {} r >>= expectEnd
  | cs => .error (wrongKindAt cs)

/-- The settings that the bytes of a file hold. -/
def ofBytes (bytes : ByteArray) : Except ReadError Settings :=
  match looseText? bytes with
  | some cs => read cs
  | none => .error .malformed

end Settings

/-- The options that a text holds, with defaults for the fields left out. -/
def Options.read (text : String) : Except ReadError Options :=
  (Settings.read text.toList).map ({} : Options).override

end RamlSchema
