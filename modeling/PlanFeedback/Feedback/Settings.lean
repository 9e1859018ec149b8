import PlanFeedback.Json.Reader

/-!
The switches of the feedback loop.
-/
namespace PlanFeedback.Feedback

structure Settings where
  /-- Executions are handled at all. -/
  enabled : Bool := true
  /-- Reports are not written to the log. -/
  quiet : Bool := false
  /-- The planner may see the active hints. -/
  applyHints : Bool := true
  deriving DecidableEq, Repr

namespace Settings

def reader : Json.Reader Settings := fun p v => do
  let f ← Json.fields ["enabled", "quiet", "apply_hints"] p v
  return {
    enabled := ← f.withDefault "enabled" Json.boolean true
    quiet := ← f.withDefault "quiet" Json.boolean false
    applyHints := ← f.withDefault "apply_hints" Json.boolean true }

def boolText (b : Bool) : String := if b then "true" else "false"

/-- The switches with their names. -/
def description (s : Settings) : String :=
  "FeedbackConfig \x7b enabled: " ++ boolText s.enabled ++ ", quiet: " ++ boolText s.quiet ++
    ", apply_hints: " ++ boolText s.applyHints ++ " \x7d"

end Settings

end PlanFeedback.Feedback
