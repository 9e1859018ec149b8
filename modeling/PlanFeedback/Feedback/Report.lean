import PlanFeedback.Advice.Directives
import PlanFeedback.Query.Fingerprint
import PlanFeedback.Store.Error
import PlanFeedback.Text.Blank

/-!
Reports on handled executions and their text: sections with a header line each and the lines of the
body behind two tabs.
-/
namespace PlanFeedback.Feedback

open Store (StorageError)

/-- The steps that ask something of the repository, in their order. -/
inductive Step where
  | loadHints
  | replaceHints
  | appendHistory
  | recordNormalized
  | recordRaw
  deriving DecidableEq, Repr

def Step.text : Step → String
  | .loadHints => "load hints"
  | .replaceHints => "replace hints"
  | .appendHistory => "plan_history"
  | .recordNormalized => "norm_queries"
  | .recordRaw => "raw_queries"

structure Failure where
  step : Step
  error : StorageError
  deriving DecidableEq, Repr

def Failure.text (f : Failure) : String := f.step.text ++ ": " ++ f.error.message

structure Report where
  fingerprint : Query.Fingerprint
  planId : UInt32
  milliseconds : Float
  client : String
  directives : Advice.Directives
  /-- The active row hints before. -/
  prior : String
  /-- The active row hints after, if they could be stored. -/
  stored? : Option String
  historyId? : Option Nat
  failures : List Failure

namespace Report

def isFullyPersisted (r : Report) : Bool := r.failures.isEmpty

/-- The titles and bodies of the sections. Failures have a section only where there are some. -/
def sections (r : Report) : List (String × String) :=
  [("Query text", r.fingerprint.normalized),
    ("Query id", toString r.fingerprint.queryId.toNat),
    ("Plan id", toString r.planId.toNat),
    ("Query hash", r.fingerprint.key),
    ("Execution time (ms)", Decimal.fixed 3 r.milliseconds),
    ("Hints", r.directives.hints),
    ("Rows hint (feedback info)", r.directives.rows),
    ("Join cnt", toString r.directives.joinCount),
    ("Total diff rows of joins", Decimal.fixed 0 r.directives.totalDiff),
    ("Application name", r.client)] ++
  if r.failures.isEmpty then []
  else [("Persistence failures", "\n".intercalate (r.failures.map Failure.text))]

/-- The header of a section, filled up with dashes. -/
def header (title : String) : String :=
  "---- " ++ title ++ " " ++ String.ofList (List.replicate (30 - title.length) '-') ++ "\n"

def sectionText (title body : String) : String :=
  header title ++ String.join ((Text.lines body).map fun line => "\t\t" ++ line ++ "\n")

def render (r : Report) : String :=
  String.join (r.sections.map fun s => sectionText s.1 s.2)

end Report

end PlanFeedback.Feedback
