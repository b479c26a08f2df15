/-
RamlSchema/Files/Disk.lean

What a program may ask of files.

The operations say what they do and how they fail, and leave open where the
files are: a tree in memory has them, and so have the files of a computer.  A
program written against them does the same to either.
-/

namespace RamlSchema

/-- Why a file has no text. -/
inductive ReadFailure where
  /-- Nothing is there. -/
  | missing
  /-- A directory is there. -/
  | directory
  /-- Its bytes are no UTF-8. -/
  | notText
  | other (cause : String)
deriving DecidableEq, Repr

/-- A failure in words. -/
def ReadFailure.message : ReadFailure → String
  | .missing => "No such file or directory (os error 2)"
  | .directory => "Is a directory (os error 21)"
  | .notText => "stream did not contain valid UTF-8"
  | .other cause => cause

/-- Why a file cannot be saved. -/
inductive SaveFailure where
  /-- The directory takes no new file. -/
  | temporary
  /-- The new file cannot take its place. -/
  | replacement
deriving DecidableEq, Repr

/-- Files under paths. -/
class Disk (m : Type → Type) where
  /-- The bytes of a file. -/
  read : String → m (Except ReadFailure ByteArray)
  /-- Makes a directory and those above it, and tells whether it is there. -/
  makeDirectories : String → m Bool
  /-- Saves a file whole or not at all. -/
  save : String → ByteArray → m (Except SaveFailure Unit)

/-- The text of a file. -/
def readText {m : Type → Type} [Monad m] [Disk m] (path : String) :
    m (Except ReadFailure String) := do
  match ← Disk.read path with
  | .error e => return .error e
  | .ok bytes =>
    match String.fromUTF8? bytes with
    | some text => return .ok text
    | none => return .error .notText

end RamlSchema
