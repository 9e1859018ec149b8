import PlanFeedback.Plan.RangeTable
import PlanFeedback.Plan.Walk

/-!
The join order directive. A scan of a sort that is named contributes the name of its relation, a join
puts its inputs between parentheses, and every other node stands for its inputs.
-/
namespace PlanFeedback.Advice

open Plan (Kind Names BadIndex EdgeFilter ScanKind)

def isOrdered : ScanKind → Bool
  | .seq | .cte | .bitmapHeap | .function | .index | .indexOnly => true
  | .sample | .tid | .subquery | .tableFunc | .values | .namedTuplestore | .workTable => false

/-- The texts of the inputs one after the other; the first error wins. -/
def concatInputs (bs : List (Plan.Branch (Except BadIndex String))) : Except BadIndex String := do
  let texts ← (EdgeFilter.spine.branches bs).mapM Plan.Branch.value
  return String.join texts

def joinOrder (names : Names) (p : Plan) : Except BadIndex String :=
  p.fold fun q bs => do
    match q.kind with
    | .scan method relation =>
      if isOrdered method then return (← names.get relation) ++ " "
      else concatInputs bs
    | .join _ => return "(" ++ (← concatInputs bs) ++ ")"
    | _ => concatInputs bs

def leading (names : Names) (p : Plan) : Except BadIndex String := do
  return "LEADING( " ++ (← joinOrder names p) ++ " )"

end PlanFeedback.Advice
