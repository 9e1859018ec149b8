/-!
What can go wrong in a repository.
-/
namespace PlanFeedback.Store

inductive StorageError where
  /-- The database itself failed. -/
  | database (detail : String)
  /-- A record or a counter could not be written or read. -/
  | serialization (detail : String)
  /-- A table of the repository does not exist. -/
  | schemaMissing (table : String)
  deriving DecidableEq, Repr

namespace StorageError

def message : StorageError → String
  | .database detail => s!"数据库错误: {detail}"
  | .serialization detail => s!"序列化错误: {detail}"
  | .schemaMissing table => s!"仓库表不存在: {table}"

/-- The error ends the handling of an execution; others only fail their step. -/
def isInvariantViolation : StorageError → Bool
  | .schemaMissing _ => true
  | .database _ | .serialization _ => false

end StorageError

end PlanFeedback.Store
