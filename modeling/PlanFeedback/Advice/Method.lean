import PlanFeedback.Plan.Basic

/-!
The directive keywords for the ways of reading a relation and of joining two inputs.
-/
namespace PlanFeedback.Advice

open Plan (ScanKind JoinKind)

/-- The access methods that a directive can ask for. -/
inductive ScanMethod where
  | seq
  | bitmap
  | index
  | indexOnly
  deriving DecidableEq, Repr

namespace ScanMethod

/-- The method of a scan; many scans have none. -/
def ofKind? : ScanKind → Option ScanMethod
  | .seq | .cte | .function => some .seq
  | .bitmapHeap => some .bitmap
  | .index => some .index
  | .indexOnly => some .indexOnly
  | .sample | .tid | .subquery | .tableFunc | .values | .namedTuplestore | .workTable => none

def keyword : ScanMethod → String
  | .seq => "SEQSCAN"
  | .bitmap => "BITMAPSCAN"
  | .index => "INDEXSCAN"
  | .indexOnly => "INDEXONLYSCAN"

end ScanMethod

def joinKeyword : JoinKind → String
  | .nestLoop => "NESTLOOP"
  | .mergeJoin => "MERGEJOIN"
  | .hashJoin => "HASHJOIN"

end PlanFeedback.Advice
