import PlanFeedback.Advice.Shape
import PlanFeedback.Error
import PlanFeedback.Feedback.Execution
import PlanFeedback.Feedback.Report
import PlanFeedback.Feedback.Settings
import PlanFeedback.Store.Repository

/-!
The feedback loop. An execution that qualifies is fingerprinted and turned into directives, its row
hints are merged into the active ones, and it is noted in the history and in the logs of query
texts. A step of the repository may fail on its own; a missing table ends the handling.
-/
namespace PlanFeedback.Feedback

open Store (Repository StorageError HistoryRecord)
open Time (Instant)

/-! The log. -/

inductive Level where
  | error
  | info
  deriving DecidableEq, Repr

def Level.text : Level → String
  | .error => "ERROR"
  | .info => "INFO"

/-- Where a message comes from: the lines of a report, or the loop itself. -/
inductive Channel where
  | report
  | loop
  deriving DecidableEq, Repr

def Channel.text : Channel → String
  | .report => "plan_advisor::feedback"
  | .loop => "plan_advisor::services::feedback"

structure Message where
  level : Level
  channel : Channel
  text : String
  deriving DecidableEq, Repr

/-! Handling an execution. -/

structure Progress (σ : Type) where
  store : σ
  failures : List Failure := []
  log : List Message := []

/-- Steps that change the progress and may end the handling. -/
abbrev Handling (σ : Type) := ExceptT Error (StateM (Progress σ))

def say {σ : Type} (m : Message) : Handling σ Unit :=
  modify fun w => { w with log := w.log ++ [m] }

/-- The fingerprint of an execution that is to be handled: the loop is enabled, a plan with counts
was asked for, and the query can be fingerprinted. -/
def qualify? (settings : Settings) (e : Execution) : Option Query.Fingerprint :=
  if settings.enabled ∧ e.statement.isAnalyzeRequest then e.statement.fingerprint? e.source
  else none

def advise (e : Execution) : Except Plan.BadIndex (UInt32 × Advice.Directives) := do
  let planId ← Advice.planId e.table e.plan.effectiveRoot
  return (planId, ← Advice.directives e.table e.plan)

/-- Takes a step. An ordinary error is noted and the handling goes on without a result; a missing
table ends it. -/
def persist {σ α : Type} (step : Step) (operation : σ → Except StorageError (α × σ)) :
    Handling σ (Option α) := do
  match operation (← get).store with
  | .ok (value, store) =>
    modify fun w => { w with store }
    return some value
  | .error e =>
    if e.isInvariantViolation then throw (.storage e)
    else
      say ⟨.error, .loop, step.text ++ " 失败: " ++ e.message⟩
      modify fun w => { w with failures := w.failures ++ [⟨step, e⟩] }
      return none

/-- An operation that only looks. -/
def looking {σ α : Type} (operation : σ → Except StorageError α) (s : σ) :
    Except StorageError (α × σ) :=
  (operation s).map fun value => (value, s)

/-- Takes the five steps for a qualified execution and reports on them. -/
def persistAll {σ : Type} (repository : Repository σ) (now : Instant) (e : Execution)
    (f : Query.Fingerprint) (planId : UInt32) (d : Advice.Directives) : Handling σ Report := do
  let milliseconds := e.milliseconds?.getD 0
  let prior? ← persist .loadHints (looking (repository.load f.normalized e.client))
  let stored? ← persist .replaceHints (repository.replace now f.normalized e.client d.rows)
  let record := HistoryRecord.new f planId milliseconds d e.client now
  let historyId? ← persist .appendHistory (repository.appendHistory record)
  let _ ← persist .recordNormalized (repository.recordText .normalized now f.key f.normalized)
  let _ ← persist .recordRaw (repository.recordText .raw now f.key e.source.text)
  return {
    fingerprint := f
    planId
    milliseconds
    client := e.client
    directives := d
    prior := prior?.getD ""
    stored?
    historyId?
    failures := (← get).failures }

/-- Handles an execution, and reports on it if it qualified. -/
def handle {σ : Type} (repository : Repository σ) (settings : Settings) (now : Instant)
    (e : Execution) : Handling σ (Option Report) := do
  match qualify? settings e with
  | none => return none
  | some f =>
    let (planId, d) ← ExceptT.mk (pure ((advise e).mapError Error.plan))
    ExceptT.mk (return (repository.ensureSchema (← get).store).mapError Error.storage)
    let report ← persistAll repository now e f planId d
    if !settings.quiet then
      (Text.lines report.render).forM fun line => say ⟨.info, .report, line⟩
    return some report

/-! The loop as a whole. -/

structure Outcome (σ α : Type) where
  result : Except Error α
  store : σ
  log : List Message

/-- Handles an execution. The contents of the repository are those of the steps that took place,
also where the result is an error. -/
def process {σ : Type} (repository : Repository σ) (settings : Settings) (now : Instant)
    (e : Execution) (store : σ) : Outcome σ (Option Report) :=
  let (result, progress) := (handle repository settings now e).run.run { store }
  ⟨result, progress.store, progress.log⟩

/-- Handles an execution for an executor that wants no errors: they go to the log. -/
def observe {σ : Type} (repository : Repository σ) (settings : Settings) (now : Instant)
    (e : Execution) (store : σ) : Outcome σ (Option Report) :=
  let outcome := process repository settings now e store
  match outcome.result with
  | .ok _ => outcome
  | .error error =>
    { outcome with
      result := .ok none
      log := outcome.log ++ [⟨.error, .loop, "反馈处理中止: " ++ error.message⟩] }

/-- The active hints as the planner sees them; none where it may not see them or there are none. -/
def activeHints {σ : Type} (repository : Repository σ) (settings : Settings)
    (normalized client : String) (store : σ) : Except Error (Option String) :=
  if !settings.applyHints then .ok none
  else
    match repository.load normalized client store with
    | .error e => .error (.storage e)
    | .ok hints => .ok (if hints = "" then none else some hints)

namespace Settings

/-- Turns the handling on and lets the planner see the hints. -/
def enableFeedback (s : Settings) : Settings × List Message :=
  ({ s with enabled := true, applyHints := true }, [⟨.info, .loop, "feedback enabled"⟩])

/-- Hides the hints from the planner; the handling goes on. -/
def disableFeedback (s : Settings) : Settings × List Message :=
  ({ s with applyHints := false }, [⟨.info, .loop, "feedback disabled"⟩])

end Settings

def description {σ : Type} (repository : Repository σ) (settings : Settings) : String :=
  "FeedbackOrchestrator \x7b repository: " ++ repository.name ++ ", settings: " ++
    settings.description ++ " \x7d"

end PlanFeedback.Feedback
