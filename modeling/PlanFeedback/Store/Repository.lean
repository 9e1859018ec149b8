import PlanFeedback.Store.Codec
import PlanFeedback.Store.Error
import PlanFeedback.Store.Record

/-!
What the feedback loop asks of a repository. An operation that fails gives no new state, so it
leaves the old one as it is. Operations that stamp a record are given the time.
-/
namespace PlanFeedback.Store

open Time (Instant)

/-- A repository whose contents have the type `σ`. -/
structure Repository (σ : Type) where
  /-- The name that a description of the loop shows. -/
  name : String
  /-- Checks that all tables exist. -/
  ensureSchema : σ → Except StorageError Unit
  /-- The active row hints of a normalised query and a client, empty if there are none. -/
  load : (normalized client : String) → σ → Except StorageError String
  /-- Merges row hints into the active ones and answers the result. -/
  replace : Instant → (normalized client rows : String) → σ → Except StorageError (String × σ)
  /-- Stores an execution under the next id and answers the id. -/
  appendHistory : HistoryRecord → σ → Except StorageError (Nat × σ)
  /-- Notes a text of a query under the next id of its log and answers the id. -/
  recordText : TextLog → Instant → (queryKey text : String) → σ → Except StorageError (Nat × σ)
  /-- The executions in the order of their ids, of one query or of all. -/
  history : (queryKey? : Option String) → σ → Except StorageError (List HistoryRecord)
  /-- The texts noted for a query. -/
  texts : TextLog → (queryKey : String) → σ → Except StorageError (List TextRecord)

end PlanFeedback.Store
