/-
RamlSchema/Main.lean

The program: the command line over the files of the computer.

A file is saved under another name in its directory and then renamed, so that
its old content stays until the new one is complete.
-/
import RamlSchema.Command.Run

namespace RamlSchema

/-- Why the bytes of a file could not be had. -/
def readFailureOf : IO.Error → ReadFailure
  | .noFileOrDirectory _ _ _ => .missing
  | .inappropriateType _ _ _ => .directory
  | e => .other (toString e)

/-- A name beside `path` for a file that is not complete. -/
def temporaryPath (path : String) (stamp : Nat) : String :=
  Path.join (Path.directory path) (".tmp" ++ toString stamp)

/-- Saves a file of the computer. -/
def saveFile (path : String) (content : ByteArray) : IO (Except SaveFailure Unit) := do
  let temporary := temporaryPath path (← IO.monoNanosNow)
  try
    IO.FS.writeBinFile temporary content
  catch _ => return .error .temporary
  try
    IO.FS.rename temporary path
    return .ok ()
  catch _ =>
    try IO.FS.removeFile temporary catch _ => pure ()
    return .error .replacement

instance : Disk IO where
  read path := try return .ok (← IO.FS.readBinFile path) catch e => return .error (readFailureOf e)
  makeDirectories path := try IO.FS.createDirAll path; return true catch _ => return false
  save := saveFile

end RamlSchema

open RamlSchema in
/-- Runs the command line and prints its lines. -/
def main (arguments : List String) : IO UInt32 := do
  let reply : Reply ← runCommand arguments
  let out ← IO.getStdout
  let err ← IO.getStderr
  reply.logLines.forM err.putStrLn
  reply.outputLines.forM out.putStrLn
  reply.errorLines.forM err.putStrLn
  return reply.exitStatus.toUInt32
