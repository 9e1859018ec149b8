import PlanFeedback.Plan.Codec
import PlanFeedback.Query.Codec

/-!
A completed execution as the executor hands it over.
-/
namespace PlanFeedback.Feedback

structure Execution where
  source : Query.Source
  statement : Query.Statement
  table : Plan.RangeTable := []
  plan : Plan
  /-- The time that the execution took, if it was measured. -/
  milliseconds? : Option Float := none
  client : String := ""

def Execution.reader : Json.Reader Execution := fun p v => do
  let f ← Json.fields
    ["source", "statement", "range_table", "plan", "execution_time_ms", "client"] p v
  return {
    source := ← f.required "source" Query.Source.reader
    statement := ← f.required "statement" Query.Statement.reader
    table := ← f.withDefault "range_table" Plan.RangeTable.reader []
    plan := ← f.required "plan" Plan.reader
    milliseconds? := ← f.withDefault "execution_time_ms" (Json.nullable Json.float) none
    client := ← f.withDefault "client" Json.str "" }

end PlanFeedback.Feedback
