import PlanFeedback.Store.Durable
import PlanFeedback.Store.Memory

/-!
Repositories under use: requests in some order, and what is answered to them. A repository may be
closed and opened again in between.
-/
namespace PlanFeedback.Store

open Time (Instant)

/-- What may be asked of a repository. -/
inductive Request where
  | ensureSchema
  | load (normalized client : String)
  | replace (normalized client rows : String)
  | appendHistory (record : HistoryRecord)
  | recordText (log : TextLog) (queryKey text : String)
  | history (queryKey? : Option String)
  | texts (log : TextLog) (queryKey : String)

inductive Answer where
  | ready
  | hints (text : String)
  | id (id : Nat)
  | executions (records : List HistoryRecord)
  | texts (records : List TextRecord)

variable {σ : Type}

namespace Request

def ask (r : Repository σ) (now : Instant) (s : σ) : Request → Except StorageError (Answer × σ)
  | ensureSchema => (r.ensureSchema s).map fun _ => (.ready, s)
  | load normalized client => (r.load normalized client s).map fun text => (.hints text, s)
  | replace normalized client rows =>
    (r.replace now normalized client rows s).map fun (text, s) => (.hints text, s)
  | appendHistory record => (r.appendHistory record s).map fun (id, s) => (.id id, s)
  | recordText log queryKey text =>
    (r.recordText log now queryKey text s).map fun (id, s) => (.id id, s)
  | history queryKey? => (r.history queryKey? s).map fun records => (.executions records, s)
  | texts log queryKey => (r.texts log queryKey s).map fun records => (.texts records, s)

/-- The answer and the contents afterwards, which are the old ones if the request failed. -/
def answer (r : Repository σ) (now : Instant) (s : σ) (q : Request) :
    Except StorageError Answer × σ :=
  match q.ask r now s with
  | .ok (a, s') => (.ok a, s')
  | .error e => (.error e, s)

end Request

/-- What happens to a repository: a request, or that it is closed and opened again, and that the
tables that do not exist are made then or not. -/
inductive Event where
  | request (q : Request)
  | reopen (creates : Bool)

/-- The contents of a repository that was closed and opened again. All that was written is there. -/
def Durable.reopen (creates : Bool) (d : Durable) : Durable := if creates then d.createSchema else d

/-- The answers to the requests among the events, of which the first is at the place `n`. The clock
shows the time at each place. -/
def answers (r : Repository σ) (reopen : Bool → σ → σ) (clock : Nat → Instant) :
    (n : Nat) → List Event → σ → List (Except StorageError Answer)
  | _, [], _ => []
  | n, .request q :: events, s =>
    let (a, s') := q.answer r (clock n) s
    a :: answers r reopen clock (n + 1) events s'
  | n, .reopen creates :: events, s =>
    answers r reopen clock (n + 1) events (reopen creates s)

namespace Memory

def answers (clock : Nat → Instant) (n : Nat) (events : List Event) (m : Memory) :
    List (Except StorageError Answer) :=
  Store.answers repository (fun _ m => m) clock n events m

end Memory

/-- The answers of a repository that outlives the program. -/
def Durable.answers (clock : Nat → Instant) (n : Nat) (events : List Event) (d : Durable) :
    List (Except StorageError Answer) :=
  Store.answers repository reopen clock n events d

/-! Time stamps. -/

def TextRecord.timeless (r : TextRecord) : TextRecord := { r with timestamp := ⟨0, 0, 0⟩ }

def HintRecord.timeless (r : HintRecord) : HintRecord := { r with updated := ⟨0, 0, 0⟩ }

/-- An answer without the time stamps that the repository gave. -/
def Answer.timeless : Answer → Answer
  | texts records => texts (records.map TextRecord.timeless)
  | a => a

namespace Memory

/-- The contents without the time stamps that the repository gave. -/
def timeless (m : Memory) : Memory where
  ready := m.ready
  hints := m.hints.map HintRecord.timeless
  executions := m.executions
  normalized := m.normalized.map TextRecord.timeless
  raw := m.raw.map TextRecord.timeless

theorem texts_timeless (m : Memory) (log : TextLog) :
    m.timeless.texts log = (m.texts log).map TextRecord.timeless := by
  cases log <;> rfl

theorem hintText_timeless (m : Memory) (normalized client : String) :
    m.timeless.hintText normalized client = m.hintText normalized client := by
  have hfor : isFor normalized client ∘ HintRecord.timeless = isFor normalized client := rfl
  rw [hintText, hintText, timeless, List.find?_map, hfor]
  cases m.hints.find? (isFor normalized client) <;> rfl

theorem setHint_timeless (record : HintRecord) (hints : List HintRecord) :
    setHint record.timeless (hints.map HintRecord.timeless) =
      (setHint record hints).map HintRecord.timeless := by
  induction hints with
  | nil => rfl
  | cons r hints ih =>
      have hfor : isFor record.timeless.normalized record.timeless.client r.timeless =
        isFor record.normalized record.client r := rfl
      rw [List.map_cons, setHint, setHint, hfor, ih]
      split <;> rfl

theorem timeless_recordText (m : Memory) (log : TextLog) (now : Instant) (queryKey text : String) :
    m.timeless.recordText log ⟨0, 0, 0⟩ queryKey text =
      ((m.recordText log now queryKey text).1, (m.recordText log now queryKey text).2.timeless) := by
  cases log <;> simp [recordText, texts, timeless, TextRecord.timeless]

theorem timeless_replaceHint (m : Memory) (now : Instant) (normalized client rows : String) :
    m.timeless.replaceHint ⟨0, 0, 0⟩ normalized client rows =
      ((m.replaceHint now normalized client rows).1,
        (m.replaceHint now normalized client rows).2.timeless) := by
  have hset := setHint_timeless
    ⟨normalized, client, mergeRowHints (m.hintText normalized client) rows, now⟩ m.hints
  rw [replaceHint, replaceHint, hintText_timeless]
  exact Prod.ext rfl (congrArg (fun hints => { m.timeless with hints }) hset)

theorem answer_timeless (m : Memory) (now : Instant) (q : Request) :
    q.answer repository ⟨0, 0, 0⟩ m.timeless =
      ((q.answer repository now m).1.map Answer.timeless,
        (q.answer repository now m).2.timeless) := by
  cases q with
  | ensureSchema =>
      simp only [Request.answer, Request.ask, repository]
      have hready : m.timeless.ready = m.ready := rfl
      rw [hready]
      cases m.ready <;> rfl
  | load normalized client =>
      simp only [Request.answer, Request.ask, repository, Except.map, hintText_timeless,
        Answer.timeless]
  | replace normalized client rows =>
      simp only [Request.answer, Request.ask, repository, Except.map,
        timeless_replaceHint m now, Answer.timeless]
  | appendHistory record => rfl
  | recordText log queryKey text =>
      simp only [Request.answer, Request.ask, repository, Except.map,
        timeless_recordText m log now, Answer.timeless]
  | history queryKey? => rfl
  | texts log queryKey =>
      have hkey : (fun r : TextRecord => r.queryKey == queryKey) ∘ TextRecord.timeless =
        fun r => r.queryKey == queryKey := rfl
      simp only [Request.answer, Request.ask, repository, Except.map, texts_timeless,
        List.filter_map, hkey, Answer.timeless]

theorem answers_timeless (clock : Nat → Instant) (n : Nat) (events : List Event) (m : Memory) :
    (m.answers clock n events).map (Except.map Answer.timeless) =
      m.timeless.answers (fun _ => ⟨0, 0, 0⟩) n events := by
  rw [answers, answers]
  induction events generalizing n m with
  | nil => rfl
  | cons event events ih =>
      cases event with
      | request q =>
          simp only [Store.answers, List.map_cons, answer_timeless m (clock n) q, ih]
      | reopen creates => exact ih (n + 1) m

end Memory

end PlanFeedback.Store
