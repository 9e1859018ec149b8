import PlanFeedback.Store.Repository

/-!
The repository that lives in memory. Ids count the entries of their log.
-/
namespace PlanFeedback.Store

open Time (Instant)

structure Memory where
  ready : Bool := true
  hints : List HintRecord := []
  executions : List HistoryRecord := []
  normalized : List TextRecord := []
  raw : List TextRecord := []

namespace Memory

def new : Memory := {}

/-- An empty repository that claims to lack its tables. -/
def withoutSchema : Memory := { ready := false }

/-- The number of active hints, the empty ones included. -/
def hintCount (m : Memory) : Nat := m.hints.length

def isFor (normalized client : String) (r : HintRecord) : Bool :=
  r.normalized == normalized && r.client == client

def hintText (m : Memory) (normalized client : String) : String :=
  match m.hints.find? (isFor normalized client) with
  | some r => r.hints
  | none => ""

/-- Puts a record in the place of the one for the same query and client, or at the end. -/
def setHint (record : HintRecord) : List HintRecord → List HintRecord
  | [] => [record]
  | r :: rest =>
    if isFor record.normalized record.client r then record :: rest else r :: setHint record rest

def replaceHint (m : Memory) (now : Instant) (normalized client rows : String) :
    String × Memory :=
  let merged := mergeRowHints (m.hintText normalized client) rows
  (merged, { m with hints := setHint ⟨normalized, client, merged, now⟩ m.hints })

def appendHistory (m : Memory) (record : HistoryRecord) : Nat × Memory :=
  let id := m.executions.length + 1
  (id, { m with executions := m.executions ++ [{ record with id }] })

def texts (m : Memory) : TextLog → List TextRecord
  | .normalized => m.normalized
  | .raw => m.raw

def recordText (m : Memory) (log : TextLog) (now : Instant) (queryKey text : String) :
    Nat × Memory :=
  let id := (m.texts log).length + 1
  let entries := m.texts log ++ [⟨id, queryKey, text, now⟩]
  match log with
  | .normalized => (id, { m with normalized := entries })
  | .raw => (id, { m with raw := entries })

def repository : Repository Memory where
  name := "MemoryHintRepository"
  ensureSchema m := if m.ready then .ok () else .error (.schemaMissing "hints")
  load normalized client m := .ok (m.hintText normalized client)
  replace now normalized client rows m := .ok (m.replaceHint now normalized client rows)
  appendHistory record m := .ok (m.appendHistory record)
  recordText log now queryKey text m := .ok (m.recordText log now queryKey text)
  history queryKey? m :=
    .ok (m.executions.filter fun r => queryKey?.all fun key => r.queryKey == key)
  texts log queryKey m := .ok ((m.texts log).filter fun r => r.queryKey == queryKey)

end Memory

end PlanFeedback.Store
