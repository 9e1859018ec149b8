import PlanFeedback.Config.Basic
import PlanFeedback.Config.LogLevel
import PlanFeedback.Feedback.Loop

/-!
What the commands ask of the place where they run: files, the time and a log. The commands are
written over any monad, so that they run on a disk and on a tree of files in memory alike.
-/
namespace PlanFeedback.Command

open Text (Bytes)

structure Host (m : Type → Type) where
  directories : Config.Directories
  /-- There is a file or a directory. -/
  isThere : String → m Bool
  /-- The bytes of a file, if there is one and it can be read. -/
  read? : String → m (Option Bytes)
  /-- Writes a file; its directory has to be there. -/
  write : String → Bytes → m Bool
  /-- Makes a directory and those around it, unless a file is in the way. -/
  makeDirectory : String → m Bool
  now : m Time.Instant
  /-- Adds messages to the log. -/
  record : Config.Log → List Feedback.Message → m Unit

inductive Failure where
  | config (path : String)
  | logLevel (faults : List Config.LevelFault)
  | logDirectory
  | repository (path : String)
  | input (path : String)
  | execution (path : String)
  | fingerprint (text : String)
  | storage (e : Store.StorageError)
  | loop (e : Error)
  | unsaved (steps : Nat)
  deriving DecidableEq, Repr

def Failure.message : Failure → String
  | .config path => "failed to load config " ++ path
  | .logLevel faults =>
    Error.message (.config ("Failed to parse log specification: " ++
      "; ".intercalate (faults.map Config.LevelFault.message)))
  | .logDirectory =>
    Error.message (.config
      "Log cannot be written, e.g. because the configured output directory is not accessible")
  | .repository path => "failed to open repository " ++ path
  | .input path => "failed to read " ++ path
  | .execution path => "invalid execution JSON in " ++ path
  | .fingerprint text => "invalid fingerprint: " ++ text
  | .storage e => e.message
  | .loop e => e.message
  | .unsaved steps => toString steps ++ " persistence step(s) failed"

/-- What a command leaves behind: what it has printed, and why it failed if it did. -/
structure Outcome where
  output : String := ""
  failure? : Option Failure := none
  deriving DecidableEq, Repr

end PlanFeedback.Command
