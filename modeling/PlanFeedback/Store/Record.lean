import PlanFeedback.Advice.Directives
import PlanFeedback.Query.Fingerprint
import PlanFeedback.Time.Instant

/-!
The records of a repository: the history of executions, two logs of query texts, and the active row
hints of a normalised query and a client.
-/
namespace PlanFeedback.Store

open Time (Instant)

/-- An execution. Its id is given by the repository, and is zero before. -/
structure HistoryRecord where
  id : Nat := 0
  queryKey : String
  queryId : UInt32
  planId : UInt32
  milliseconds : Float
  rows : String
  scan : String
  join : String
  leading : String
  totalDiff : Float
  joinCount : Nat
  client : String
  timestamp : Instant

/-- The record of an execution that has not been stored. -/
def HistoryRecord.new (f : Query.Fingerprint) (planId : UInt32) (milliseconds : Float)
    (d : Advice.Directives) (client : String) (now : Instant) : HistoryRecord where
  queryKey := f.key
  queryId := f.queryId
  planId := planId
  milliseconds := milliseconds
  rows := d.rows
  scan := d.scan
  join := d.join
  leading := d.leading
  totalDiff := d.totalDiff
  joinCount := d.joinCount
  client := client
  timestamp := now

/-- An entry of a log of query texts. -/
structure TextRecord where
  id : Nat
  queryKey : String
  text : String
  timestamp : Instant
  deriving DecidableEq, Repr

/-- The row hints that are in force for a normalised query and a client. -/
structure HintRecord where
  normalized : String
  client : String
  hints : String
  updated : Instant
  deriving DecidableEq, Repr

/-- Joins row hints with a space between, the older ones first; empty ones leave no trace. -/
def mergeRowHints (prior fresh : String) : String :=
  if prior = "" then fresh
  else if fresh = "" then prior
  else prior ++ " " ++ fresh

end PlanFeedback.Store
