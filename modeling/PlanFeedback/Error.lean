import PlanFeedback.Plan.RangeTable
import PlanFeedback.Store.Error

/-!
The errors of the feedback loop. A condition under which an execution is passed over is none of
them.
-/
namespace PlanFeedback

inductive Error where
  | storage (e : Store.StorageError)
  | plan (e : Plan.BadIndex)
  | config (detail : String)
  | io (detail : String)
  | serialization (detail : String)
  deriving DecidableEq, Repr

def Error.message : Error → String
  | .storage e => s!"存储错误: {e.message}"
  | .plan e => s!"计划错误: {e.message}"
  | .config detail => s!"配置错误: {detail}"
  | .io detail => s!"IO错误: {detail}"
  | .serialization detail => s!"序列化错误: {detail}"

end PlanFeedback
