import PlanFeedback.Command.Help
import PlanFeedback.Command.Host
import PlanFeedback.Query.Scan
import PlanFeedback.Store.Snapshot

/-!
Running the commands. A command with a configuration loads it, prepares the log and opens the
repository before anything else, so that errors come in this order.
-/
namespace PlanFeedback.Command

open Store (Durable HistoryRecord)

variable {m : Type → Type} [Monad m]

/-- Steps on a host that may fail. -/
abbrev Task (m : Type → Type) := ExceptT Failure m

/-- Loads a configuration; without the file there are the defaults. -/
def loadConfig (host : Host m) (path : String) : Task m Config := do
  let loaded ←
    if ← host.isThere path then
      pure (Config.load host.directories (← host.read? path))
    else pure (Config.loadOrDefault host.directories none)
  match loaded with
  | .ok c => return c
  | .error _ => throw (.config path)

/-- Checks the level of the log and makes its directory. -/
def openLog (host : Host m) (log : Config.Log) : Task m Unit := do
  let faults := Config.levelFaults log.level
  if faults ≠ [] then throw (.logLevel faults)
  if !(← host.makeDirectory log.directory) then throw .logDirectory

def save (host : Host m) (path : String) (d : Durable) : Task m Unit := do
  if !(← host.write path (Store.Snapshot.encode d)) then throw (.repository path)

/-- Opens the repository in a file, which is made in its absence, and makes the tables that do not
exist. -/
def openRepository (host : Host m) (path : String) : Task m Durable := do
  let directory := Config.directoryOf path
  if directory ≠ "" then
    if !(← host.makeDirectory directory) then throw (.repository path)
  let bytes? ← if ← host.isThere path then host.read? path else pure (some [])
  match bytes?.bind Store.Snapshot.decode? with
  | none => throw (.repository path)
  | some d =>
    save host path d.createSchema
    return d.createSchema

def start (host : Host m) (path : String) : Task m (Config × Durable) := do
  let config ← loadConfig host path
  openLog host config.log
  return (config, ← openRepository host config.storage)

/-- What is printed about an execution that has been handled. -/
def reportOutcome (settings : Feedback.Settings) : Option Feedback.Report → Outcome
  | none => { output := "skipped: execution does not qualify for feedback\n" }
  | some report =>
    { output := if settings.quiet then "" else report.render
      failure? :=
        if report.isFullyPersisted then none else some (.unsaved report.failures.length) }

def runFeedback (host : Host m) (configPath input : String) : Task m Outcome := do
  let (config, store) ← start host configPath
  let some text := (← host.read? input).bind Text.ofUtf8? | throw (.input input)
  let some execution := (Json.ofText? text).bind (Feedback.Execution.reader .top)
    | throw (.execution input)
  let done :=
    Feedback.process Durable.repository config.feedback (← host.now) execution store
  save host config.storage done.store
  host.record config.log done.log
  match done.result with
  | .ok report? => return reportOutcome config.feedback report?
  | .error e => throw (.loop e)

def fingerprintText (query : String) : String :=
  match (Query.Source.new query (Query.scan query)).fingerprint? with
  | none => "no fingerprint\n"
  | some f =>
    "normalized: " ++ f.normalized ++ "\nhash:       " ++ f.key ++
      "\nquery id:   " ++ toString f.queryId.toNat ++ "\n"

def runHints (host : Host m) (configPath query client : String) : Task m Outcome := do
  let (config, store) ← start host configPath
  match Feedback.activeHints Durable.repository config.feedback query client store with
  | .ok hints? => return { output := hints?.getD "no active hints" ++ "\n" }
  | .error e => throw (.loop e)

/-- The lines of a text behind four blanks each. -/
def indented (s : String) : String :=
  String.ofList (s.toList.flatMap fun c => if c = '\n' then '\n' :: "    ".toList else [c])

/-- A line about an execution, and its row hints. -/
def historyText (r : HistoryRecord) : String :=
  "#" ++ toString r.id ++ " " ++ r.queryKey ++ " query_id=" ++ toString r.queryId.toNat ++
    " plan_id=" ++ toString r.planId.toNat ++ " time=" ++ Decimal.fixed 3 r.milliseconds ++
    "ms joins=" ++ toString r.joinCount ++ " diff=" ++ Decimal.fixed 0 r.totalDiff ++
    " app=" ++ r.client ++ "\n" ++
    if r.rows = "" then "" else "    " ++ indented r.rows ++ "\n"

/-- The argument of a history command is none or spells a digest. -/
def acceptsFingerprint (fingerprint? : Option String) : Bool :=
  fingerprint?.all fun text => (Hash.Digest.ofHex? text).isSome

def listed (fingerprint? : Option String) (d : Durable) :
    Except Store.StorageError (List HistoryRecord) :=
  d.history fingerprint?

def runHistory (host : Host m) (configPath : String) (fingerprint? : Option String) :
    Task m Outcome := do
  if !acceptsFingerprint fingerprint? then throw (.fingerprint (fingerprint?.getD ""))
  let (_, store) ← start host configPath
  match listed fingerprint? store with
  | .ok records => return { output := String.join (records.map historyText) }
  | .error e => throw (.storage e)

def task (host : Host m) : Command → Task m Outcome
  | .feedback config input => runFeedback host config input
  | .fingerprint query => return { output := fingerprintText query }
  | .hints config query client => runHints host config query client
  | .history config fingerprint? => runHistory host config fingerprint?

def run (host : Host m) (c : Command) : m Outcome := do
  match ← (task host c).run with
  | .ok outcome => return outcome
  | .error failure => return { failure? := some failure }

/-- The result of a program: its exit code, what it prints, and its error if it has a text. -/
structure Result where
  exit : Nat
  output : String := ""
  error? : Option String := none
  deriving DecidableEq, Repr

def Outcome.result (o : Outcome) : Result where
  exit := if o.failure?.isSome then 1 else 0
  output := o.output
  error? := o.failure?.map Failure.message

/-- Does what arguments ask for; ill-formed ones have an exit code of their own. -/
def perform (host : Host m) (arguments : List String) : m Result :=
  match Request.ofArguments? arguments with
  | none => return { exit := 2 }
  | some (.help none) => return { exit := 0, output := overview }
  | some (.help (some t)) => return { exit := 0, output := t.help }
  | some .helpOnHelp => return { exit := 0, output := helpOnHelp }
  | some .version => return { exit := 0, output := versionText }
  | some (.run c) => do return (← run host c).result

end PlanFeedback.Command
