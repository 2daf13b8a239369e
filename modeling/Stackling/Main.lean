import Stackling.Command
import Stackling.Disk
import Std.Time.DateTime.Timestamp

/-!
# The program

Carries out the dialogue of a command with the real files, streams and clock.
-/

namespace Stackling.Command

/-- What a failed file operation comes to. -/
def FileError.ofIOError : IO.Error → FileError
  | .noFileOrDirectory .. => .missing
  | .permissionDenied .. => .denied
  | .inappropriateType .. => .isDirectory
  | e => .other (toString e)

/-- Bytes as they are written. -/
def packed (bs : Bytes) : ByteArray := ⟨bs.toArray⟩

/-- The seconds since the beginning of 1970. -/
def secondsNow : IO Int := do
  return (← Std.Time.Timestamp.now).toSecondsSinceUnixEpoch.val

/-- The time of day. -/
def timeOfDay (seconds : Int) : String :=
  let two (n : Int) : String := Text.padLeft '0' 2 (toString n)
  two (seconds / 3600 % 24) ++ ":" ++ two (seconds / 60 % 60) ++ ":" ++ two (seconds % 60)

/-- Opens the cache that is kept in a file; makes the file if there is none. -/
def openCacheFile (path : String) : IO (Except CacheFault Cache) := do
  if path = Disk.transientCache then return .ok .empty
  try
    match Cache.ofFile? (← IO.FS.readBinFile path).data.toList with
    | some c => return .ok c
    | none => return .error .notCache
  catch
    | .noFileOrDirectory .. =>
      try
        IO.FS.writeFile path (Cache.toFile .empty)
        return .ok .empty
      catch _ => return .error .unreachable
    | _ => return .error .unreachable

/-- Carries out a dialogue. -/
def Dialogue.carryOut {α : Type} : Dialogue α → IO α
  | .done result => return result
  | .print text next => do
    (← IO.getStdout).write (packed text)
    next.carryOut
  | .complain text next => do
    (← IO.getStderr).write (packed text)
    next.carryOut
  | .remark e next => do
    (← IO.getStderr).write (packed (e.line (timeOfDay (← secondsNow))))
    next.carryOut
  | .read path next => do
    let answer ← try
        pure (.ok (← IO.FS.readBinFile path).data.toList)
      catch e => pure (.error (.ofIOError e))
    (next answer).carryOut
  | .write path content next => do
    let answer ← try
        IO.FS.writeBinFile path (packed content)
        pure (.ok ())
      catch e => pure (.error (.ofIOError e))
    (next answer).carryOut
  | .openCache path next => do
    let opened ← openCacheFile path
    (next opened (← secondsNow)).carryOut
  | .storeCache path c next => do
    if path ≠ Disk.transientCache then
      try IO.FS.writeFile path c.toFile catch _ => pure ()
    next.carryOut

end Stackling.Command

/-- Runs the command that the arguments ask for. -/
def main (args : List String) : IO UInt32 := do
  let level := (← IO.getEnv "WADDLE_TRACE").getD ""
  let code ← (Stackling.Command.command level args).carryOut
  return UInt32.ofNat code
