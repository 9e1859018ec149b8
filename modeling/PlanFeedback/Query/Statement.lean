import PlanFeedback.Query.Fingerprint

/-!
Statements as the feedback loop sees them: commands that carry a plan, wrappers around another
statement, prepared statements, and utility commands, which have no query to speak of.
-/
namespace PlanFeedback.Query

/-- The commands that have a plan of their own. -/
inductive Command where
  | select
  | insert
  | update
  | delete
  | merge
  deriving DecidableEq, Repr

inductive Statement where
  | plain (command : Command)
  | explain (analyze : Bool) (target : Statement)
  | declareCursor (target : Statement)
  | createTableAs (target : Statement)
  /-- The execution of a prepared statement, which has a text of its own. -/
  | execute (name : String) (source : Source) (statement : Statement)
  /-- The execution of a prepared statement that does not exist. -/
  | executeUnknown
  | utility (command : String)
  deriving DecidableEq, Repr

namespace Statement

def explainAnalyze (target : Statement) : Statement := .explain true target

/-- The outermost statement asks for a plan with its run-time counts. -/
def isAnalyzeRequest : Statement → Bool
  | .explain analyze _ => analyze
  | _ => false

/-- The text that carries the plan: that of the innermost prepared statement, else the given one. -/
def target? (source : Source) : Statement → Option Source
  | .plain _ => some source
  | .explain _ target => target.target? source
  | .declareCursor target => target.target? source
  | .createTableAs target => target.target? source
  | .execute _ own statement => statement.target? own
  | .executeUnknown => none
  | .utility _ => none

/-- The fingerprint of the text that carries the plan. -/
def fingerprint? (source : Source) (statement : Statement) : Option Fingerprint :=
  (statement.target? source).bind Source.fingerprint?

end Statement

end PlanFeedback.Query
