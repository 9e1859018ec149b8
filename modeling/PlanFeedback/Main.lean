import PlanFeedback.Command.Run
import Std.Time.DateTime.Timestamp

/-!
The command line: the commands run on the disk. Errors go to the error stream, messages to a log file.
-/
namespace PlanFeedback.Main

open Command (Host)

/-- An action on the disk, or a value where it fails. -/
def orElse {α : Type} (fallback : α) (action : IO α) : IO α :=
  try action catch _ => return fallback

def instantOf (seconds : Int) (nanosecond : Nat) : Time.Instant :=
  ⟨seconds / 86400, (seconds % 86400).toNat, nanosecond⟩

def currentInstant : IO Time.Instant := do
  let nanoseconds := (← Std.Time.Timestamp.now).toNanosecondsSinceUnixEpoch.val
  return instantOf (nanoseconds / 1000000000) (nanoseconds % 1000000000).toNat

def messageLine (m : Feedback.Message) : String :=
  m.level.text ++ " [" ++ m.channel.text ++ "] " ++ m.text ++ "\n"

def appendLog (log : Config.Log) (messages : List Feedback.Message) : IO Unit := do
  let file ← IO.FS.Handle.mk (log.directory ++ "/" ++ log.file ++ "_rCURRENT.log") .append
  file.putStr (String.join (messages.map messageLine))

/-- The disk, with relative paths as the process has them. -/
def disk (directories : Config.Directories) : Host IO where
  directories := directories
  isThere path := orElse false do
    let _ ← IO.FS.Handle.mk path .read
    return true
  read? path := orElse none do return some (← IO.FS.readBinFile path).toList
  write path bytes := orElse false do
    IO.FS.writeBinFile path (ByteArray.mk bytes.toArray)
    return true
  makeDirectory path := orElse false do
    IO.FS.createDirAll path
    return true
  now := currentInstant
  record log messages := orElse () (appendLog log messages)

end PlanFeedback.Main

def main (arguments : List String) : IO UInt32 := do
  let home := (← IO.getEnv "HOME").getD "/"
  let working := (← IO.currentDir).toString
  let result ← PlanFeedback.Command.perform (PlanFeedback.Main.disk ⟨home, working⟩) arguments
  IO.print result.output
  match result.error? with
  | some text => IO.eprintln ("Error: " ++ text)
  | none =>
    if result.exit ≠ 0 then
      IO.eprintln "error: the arguments are not well formed; try --help"
  return result.exit.toUInt32
