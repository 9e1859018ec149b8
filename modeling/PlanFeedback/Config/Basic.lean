import PlanFeedback.Config.Path
import PlanFeedback.Error
import PlanFeedback.Feedback.Settings
import PlanFeedback.Text.Utf8
import PlanFeedback.Toml.Printer
import PlanFeedback.Toml.Reader

/-!
The configuration: the switches of the feedback loop, the place of the repository and the log. It is
read from TOML in which every table and every key may be missing, and written in full.
-/
namespace PlanFeedback

/-- Where the log goes and how much of it is kept. -/
structure Config.Log where
  level : String := "info"
  directory : String := "logs"
  file : String := "plan_advisor"
  /-- The size in bytes at which a log file is closed. -/
  maxFileSize : Nat := 104857600
  maxFiles : Nat := 5
  deriving DecidableEq, Repr

structure Config where
  feedback : Feedback.Settings := {}
  /-- The path of the repository. -/
  storage : String := "data/plan_repo.redb"
  log : Config.Log := {}
  deriving DecidableEq, Repr

namespace Config

open Toml (fields? withDefault)

def feedbackReader : Toml.Reader Feedback.Settings := fun v => do
  let fields ← fields? ["enabled", "quiet", "apply_hints"] v
  return {
    enabled := ← withDefault fields "enabled" Toml.boolean true
    quiet := ← withDefault fields "quiet" Toml.boolean false
    applyHints := ← withDefault fields "apply_hints" Toml.boolean true }

def storageReader (default : String) : Toml.Reader String := fun v => do
  withDefault (← fields? ["path"] v) "path" Toml.str default

def logReader : Toml.Reader Log := fun v => do
  let fields ← fields? ["level", "dir", "file", "max_file_size", "max_files"] v
  let default : Log := {}
  return {
    level := ← withDefault fields "level" Toml.str default.level
    directory := ← withDefault fields "dir" Toml.str default.directory
    file := ← withDefault fields "file" Toml.str default.file
    maxFileSize := ← withDefault fields "max_file_size" Toml.size default.maxFileSize
    maxFiles := ← withDefault fields "max_files" Toml.size default.maxFiles }

def reader : Toml.Reader Config := fun v => do
  let fields ← fields? ["feedback", "storage", "log"] v
  let default : Config := {}
  return {
    feedback := ← withDefault fields "feedback" feedbackReader default.feedback
    storage := ← withDefault fields "storage" (storageReader default.storage) default.storage
    log := ← withDefault fields "log" logReader default.log }

/-- The configuration that a text spells, with the path as written. -/
def ofText? (text : String) : Option Config := do
  reader (.table .header (← Toml.ofText? text))

def text (c : Config) : String :=
  Toml.document [
    ⟨"feedback", [("enabled", .bool c.feedback.enabled), ("quiet", .bool c.feedback.quiet),
      ("apply_hints", .bool c.feedback.applyHints)]⟩,
    ⟨"storage", [("path", .string c.storage)]⟩,
    ⟨"log", [("level", .string c.log.level), ("dir", .string c.log.directory),
      ("file", .string c.log.file), ("max_file_size", .natural c.log.maxFileSize),
      ("max_files", .natural c.log.maxFiles)]⟩]

/-- The same configuration with the full path of its repository. -/
def resolved (d : Directories) (c : Config) : Config :=
  { c with storage := d.resolve c.storage }

/-- Reads a configuration file; `none` stands for one that cannot be read. -/
def load (d : Directories) (file? : Option Text.Bytes) : Except Error Config :=
  match file?.bind Text.ofUtf8? with
  | none => .error (.io "unreadable file")
  | some text =>
    match ofText? text with
    | none => .error (.config "malformed configuration")
    | some c => .ok (c.resolved d)

/-- Reads a configuration file or, in its absence, gives the defaults. -/
def loadOrDefault (d : Directories) (file? : Option Text.Bytes) : Except Error Config :=
  match file? with
  | none => .ok (resolved d {})
  | some bytes => load d (some bytes)

end Config

end PlanFeedback
