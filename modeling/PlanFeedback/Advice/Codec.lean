import PlanFeedback.Advice.Directives
import PlanFeedback.Json.Reader

/-!
Reading directives from JSON.
-/
namespace PlanFeedback.Advice

def Directives.fieldNames : List String :=
  ["scan_directives", "join_directives", "leading_directive", "rows_directives",
    "total_absolute_row_diff", "join_count"]

def Directives.reader : Json.Reader Directives := fun p v => do
  let f ← Json.fields Directives.fieldNames p v
  return {
    scan := ← f.required "scan_directives" Json.str
    join := ← f.required "join_directives" Json.str
    leading := ← f.required "leading_directive" Json.str
    rows := ← f.required "rows_directives" Json.str
    totalDiff := ← f.required "total_absolute_row_diff" Json.float
    joinCount := ← f.required "join_count" Json.size }

end PlanFeedback.Advice
