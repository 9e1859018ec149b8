import PlanFeedback.Store.Repository

/-!
Repositories in which chosen operations fail.
-/
namespace PlanFeedback.Store

/-- The operations that can be made to fail. The listing operations fail together. -/
inductive Call where
  | ensureSchema
  | load
  | replace
  | history
  | normalized
  | raw
  | list
  deriving DecidableEq, Repr

def TextLog.call : TextLog → Call
  | .normalized => .normalized
  | .raw => .raw

/-- The error with which an operation fails, if it does. -/
abbrev Faults := Call → Option StorageError

namespace Faults

def none : Faults := fun _ => Option.none

/-- The faults of a list; of several for one operation the first counts. -/
def ofList (faults : List (Call × StorageError)) : Faults := fun call => faults.lookup call

/-- An operation that fails before it reaches the repository, or else takes place. -/
def guard {α : Type} (faults : Faults) (call : Call) (operation : Except StorageError α) :
    Except StorageError α :=
  match faults call with
  | some e => .error e
  | Option.none => operation

end Faults

def Repository.withFaults {σ : Type} (r : Repository σ) (faults : Faults) : Repository σ where
  name := r.name
  ensureSchema s := faults.guard .ensureSchema (r.ensureSchema s)
  load normalized client s := faults.guard .load (r.load normalized client s)
  replace now normalized client rows s :=
    faults.guard .replace (r.replace now normalized client rows s)
  appendHistory record s := faults.guard .history (r.appendHistory record s)
  recordText log now queryKey text s := faults.guard log.call (r.recordText log now queryKey text s)
  history queryKey? s := faults.guard .list (r.history queryKey? s)
  texts log queryKey s := faults.guard .list (r.texts log queryKey s)

end PlanFeedback.Store
