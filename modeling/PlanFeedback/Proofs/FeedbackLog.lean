import PlanFeedback.Proofs.Handling

/-!
The feedback loop over a repository in memory. Whatever is asked of it and however its switches are
set in between, the repository holds what the reports say, in the order of the reports.
-/
namespace PlanFeedback.Feedback

open Store (Memory HistoryRecord TextRecord TextLog mergeRowHints joined joined_nil
  mergeRowHints_joined)
open Time (Instant)

/-- What may be asked of a loop: to handle an execution at some time, or to set a switch. -/
inductive Event where
  | execution (now : Instant) (e : Execution)
  | setEnabled (enabled : Bool)
  | setQuiet (quiet : Bool)
  | enableFeedback
  | disableFeedback

namespace Event

def settings (s : Settings) : Event → Settings
  | execution _ _ => s
  | setEnabled enabled => { s with enabled }
  | setQuiet quiet => { s with quiet }
  | enableFeedback => s.enableFeedback.1
  | disableFeedback => s.disableFeedback.1

/-- What is left of an event without the switches that only concern the log and the planner. -/
def essence? : Event → Option Event
  | execution now e => some (execution now e)
  | setEnabled enabled => some (setEnabled enabled)
  | setQuiet _ => none
  | enableFeedback => some (setEnabled true)
  | disableFeedback => none

end Event

/-- A call that ended with a report, with the contents of the repository before and after it. -/
structure Entry where
  now : Instant
  execution : Execution
  report : Report
  before : Memory
  after : Memory

namespace Entry

def normalized (x : Entry) : String := x.report.fingerprint.normalized

/-- The history record of a call under some id. -/
def record (x : Entry) (id : Nat) : HistoryRecord where
  id := id
  queryKey := x.report.fingerprint.key
  queryId := x.report.fingerprint.queryId
  planId := x.report.planId
  milliseconds := x.report.milliseconds
  rows := x.report.directives.rows
  scan := x.report.directives.scan
  join := x.report.directives.join
  leading := x.report.directives.leading
  totalDiff := x.report.directives.totalDiff
  joinCount := x.report.directives.joinCount
  client := x.report.client
  timestamp := x.now

def text (x : Entry) : TextLog → String
  | .normalized => x.normalized
  | .raw => x.execution.source.text

/-- The entry of a call in a log of query texts under some id. -/
def note (log : TextLog) (x : Entry) (id : Nat) : TextRecord :=
  ⟨id, x.report.fingerprint.key, x.text log, x.now⟩

end Entry

/-- Numbers the calls from one on. -/
def numbered {α : Type} (f : Entry → Nat → α) (entries : List Entry) : List α :=
  entries.mapIdx fun i x => f x (i + 1)

/-- The row hints of the calls for a normalised query and a client. -/
def rowsFor (normalized client : String) (entries : List Entry) : List String :=
  (entries.filter fun x => x.normalized == normalized && x.report.client == client).map
    fun x => x.report.directives.rows

structure Session where
  settings : Settings
  store : Memory

namespace Session

def step (s : Session) : Event → Session × List Entry
  | .execution now e =>
    let outcome := process Memory.repository s.settings now e s.store
    let entries := match outcome.result with
      | .ok (some report) => [⟨now, e, report, s.store, outcome.store⟩]
      | _ => []
    ({ s with store := outcome.store }, entries)
  | event => ({ s with settings := event.settings s.settings }, [])

/-- The session after some events, and the calls among them that ended with a report. -/
def run (s : Session) : List Event → Session × List Entry
  | [] => (s, [])
  | event :: rest =>
    let next := s.step event
    let later := next.1.run rest
    (later.1, next.2 ++ later.2)

/-- A call leaves the contents alone and no entry, or it ends with a report on what it did. -/
theorem step_execution {s : Session} (hready : s.store.ready = true) (now : Instant)
    (e : Execution) :
    (s.step (.execution now e) = (s, [])) ∨
      ∃ f planId d, s.step (.execution now e) =
        ({ s with store := absorb s.store now e f planId d },
          [⟨now, e, memoryReport s.store e f planId d, s.store,
            absorb s.store now e f planId d⟩]) := by
  simp only [step, process_memory hready]
  cases qualify? s.settings e with
  | none => exact Or.inl rfl
  | some f =>
      cases advise e with
      | error bad => exact Or.inl rfl
      | ok r => exact Or.inr ⟨f, r.1, r.2, rfl⟩

end Session

/-- The contents of a repository in memory are what a list of calls says. -/
structure Reflects (entries : List Entry) (m : Memory) : Prop where
  ready : m.ready = true
  hints : ∀ normalized client,
    m.hintText normalized client = joined (rowsFor normalized client entries)
  executions : m.executions = numbered Entry.record entries
  texts : ∀ log, m.texts log = numbered (Entry.note log) entries

/-- An entry says what was stored just before its call and just after. -/
structure Entry.Exact (x : Entry) : Prop where
  prior : x.report.prior = x.before.hintText x.normalized x.report.client
  stored : x.report.stored? = some (x.after.hintText x.normalized x.report.client)
  complete : x.report.failures = []

theorem reflects_new : Reflects [] Memory.new :=
  ⟨rfl, fun _ _ => joined_nil.symm, rfl, fun log => by cases log <;> rfl⟩

theorem numbered_concat {α : Type} (f : Entry → Nat → α) (entries : List Entry) (x : Entry) :
    numbered f (entries ++ [x]) = numbered f entries ++ [f x (entries.length + 1)] := by
  simp only [numbered, List.mapIdx_concat]

theorem length_numbered {α : Type} (f : Entry → Nat → α) (entries : List Entry) :
    (numbered f entries).length = entries.length := List.length_mapIdx

theorem rowsFor_concat (normalized client : String) (entries : List Entry) (x : Entry) :
    rowsFor normalized client (entries ++ [x]) = rowsFor normalized client entries ++
      if x.normalized = normalized ∧ x.report.client = client then [x.report.directives.rows]
      else [] := by
  simp only [rowsFor, List.filter_append, List.map_append]
  by_cases h : x.normalized = normalized ∧ x.report.client = client
  · simp [h]
  · rw [if_neg h]
    have hb : (x.normalized == normalized && x.report.client == client) = false := by
      rwa [Bool.eq_false_iff, Ne, Bool.and_eq_true, beq_iff_eq, beq_iff_eq]
    simp [hb]

theorem hintText_absorb (m : Memory) (now : Instant) (e : Execution) (f : Query.Fingerprint)
    (planId : UInt32) (d : Advice.Directives) (normalized client : String) :
    (absorb m now e f planId d).hintText normalized client =
      if f.normalized = normalized ∧ e.client = client then
        mergeRowHints (m.hintText f.normalized e.client) d.rows
      else m.hintText normalized client := by
  rw [← Memory.hintText_replaceHint m now]
  simp only [absorb, Memory.hintText_recordText]
  rfl

theorem absorb_reflects {entries : List Entry} {m : Memory} (h : Reflects entries m) (now : Instant)
    (e : Execution) (f : Query.Fingerprint) (planId : UInt32) (d : Advice.Directives) :
    Reflects (entries ++ [⟨now, e, memoryReport m e f planId d, m, absorb m now e f planId d⟩])
      (absorb m now e f planId d) := by
  refine ⟨?_, fun normalized client => ?_, ?_, fun log => ?_⟩
  · exact h.ready
  · rw [hintText_absorb, rowsFor_concat, h.hints, h.hints]
    by_cases hc : f.normalized = normalized ∧ e.client = client
    · obtain ⟨rfl, rfl⟩ := hc
      rw [if_pos ⟨rfl, rfl⟩, mergeRowHints_joined, if_pos ⟨rfl, rfl⟩]
      rfl
    · rw [if_neg hc]
      exact congrArg joined (((congrArg _ (if_neg hc)).trans (List.append_nil _)).symm)
  · have hlen : m.executions.length = entries.length := by rw [h.executions, length_numbered]
    rw [numbered_concat, ← h.executions, ← hlen]
    rfl
  · have hlen : (m.texts log).length = entries.length := by rw [h.texts, length_numbered]
    rw [numbered_concat, ← h.texts, ← hlen]
    cases log <;> rfl

theorem exact_absorb (m : Memory) (now : Instant) (e : Execution) (f : Query.Fingerprint)
    (planId : UInt32) (d : Advice.Directives) :
    Entry.Exact ⟨now, e, memoryReport m e f planId d, m, absorb m now e f planId d⟩ := by
  refine ⟨rfl, ?_, rfl⟩
  have htext := hintText_absorb m now e f planId d f.normalized e.client
  rw [if_pos ⟨rfl, rfl⟩] at htext
  exact congrArg some htext.symm

namespace Session

/-- What one event preserves: the contents go on saying what the calls say. -/
theorem step_reflects {s : Session} {entries : List Entry} (h : Reflects entries s.store)
    (event : Event) : Reflects (entries ++ (s.step event).2) (s.step event).1.store ∧
      ∀ x ∈ (s.step event).2, x.Exact := by
  cases event with
  | execution now e =>
      rcases step_execution h.ready now e with hs | ⟨f, planId, d, hs⟩
      · rw [hs, List.append_nil]
        exact ⟨h, by simp⟩
      · rw [hs]
        refine ⟨absorb_reflects h now e f planId d, fun x hx => ?_⟩
        rw [List.mem_singleton.1 hx]
        exact exact_absorb s.store now e f planId d
  | setEnabled | setQuiet | enableFeedback | disableFeedback =>
      refine ⟨?_, by simp [step]⟩
      rw [step, List.append_nil]
      · exact h
      · simp

theorem run_reflects {s : Session} {entries : List Entry} (h : Reflects entries s.store)
    (events : List Event) : Reflects (entries ++ (s.run events).2) (s.run events).1.store ∧
      ∀ x ∈ (s.run events).2, x.Exact := by
  induction events generalizing s entries with
  | nil =>
      rw [run, List.append_nil]
      exact ⟨h, by simp⟩
  | cons event rest ih =>
      obtain ⟨hstep, hexact⟩ := step_reflects h event
      obtain ⟨hrun, hlater⟩ := ih hstep
      rw [run, ← List.append_assoc]
      refine ⟨hrun, fun x hx => ?_⟩
      rcases List.mem_append.1 hx with hx | hx
      · exact hexact x hx
      · exact hlater x hx

/-- The switch that turns the handling on is the only one on which an event depends. -/
theorem step_essence {s s' : Session} (hready : s.store.ready = true)
    (henabled : s'.settings.enabled = s.settings.enabled) (hstore : s'.store = s.store)
    (event : Event) :
    match event.essence? with
    | none => (s.step event).2 = [] ∧ (s.step event).1.store = s.store ∧
        (s.step event).1.settings.enabled = s.settings.enabled
    | some event' => (s'.step event').2 = (s.step event).2 ∧
        (s'.step event').1.store = (s.step event).1.store ∧
        (s'.step event').1.settings.enabled = (s.step event).1.settings.enabled := by
  cases event with
  | execution now e =>
      have hqualify : qualify? s'.settings e = qualify? s.settings e := by
        simp only [qualify?, henabled]
      simp only [Event.essence?, step, hstore, process_memory hready, hqualify]
      cases qualify? s.settings e with
      | none => exact ⟨rfl, rfl, henabled⟩
      | some f =>
          cases advise e with
          | error bad => exact ⟨rfl, rfl, henabled⟩
          | ok r => exact ⟨rfl, rfl, henabled⟩
  | setEnabled enabled => exact ⟨rfl, hstore, rfl⟩
  | setQuiet quiet => exact ⟨rfl, rfl, rfl⟩
  | enableFeedback => exact ⟨rfl, hstore, rfl⟩
  | disableFeedback => exact ⟨rfl, rfl, rfl⟩

theorem run_essence {s s' : Session} {entries : List Entry} (h : Reflects entries s.store)
    (henabled : s'.settings.enabled = s.settings.enabled) (hstore : s'.store = s.store)
    (events : List Event) :
    (s'.run (events.filterMap Event.essence?)).2 = (s.run events).2 ∧
      (s'.run (events.filterMap Event.essence?)).1.store = (s.run events).1.store := by
  induction events generalizing s s' entries with
  | nil => exact ⟨rfl, hstore⟩
  | cons event rest ih =>
      have hstep := step_essence h.ready henabled hstore event
      have hnext := (step_reflects h event).1
      rw [List.filterMap_cons]
      cases hessence : event.essence? with
      | none =>
          rw [hessence] at hstep
          obtain ⟨hentries, hstore', henabled'⟩ := hstep
          rw [run, hentries, List.nil_append]
          exact ih hnext (henabled.trans henabled'.symm) (hstore.trans hstore'.symm)
      | some event' =>
          rw [hessence] at hstep
          obtain ⟨hentries, hstore', henabled'⟩ := hstep
          obtain ⟨h1, h2⟩ := ih hnext henabled' hstore'
          rw [run, run, hentries]
          exact ⟨congrArg ((s.step event).2 ++ ·) h1, h2⟩

/-- After any events the active hints are the row hints of the calls that ended with a report,
joined in their order; each report tells the hints before and after its call; the history and the
logs hold a record for each report, numbered from one; and of the switches only the one that turns
the handling on has a part in it. -/
theorem run_log (settings : Settings) (events : List Event) :
    let out := (Session.mk settings Memory.new).run events
    (∀ normalized client, Memory.repository.load normalized client out.1.store =
        .ok (joined (rowsFor normalized client out.2))) ∧
      (∀ x ∈ out.2, Memory.repository.load x.normalized x.report.client x.before =
          .ok x.report.prior ∧
        (Memory.repository.load x.normalized x.report.client x.after).map some =
          .ok x.report.stored?) ∧
      Memory.repository.history none out.1.store = .ok (numbered Entry.record out.2) ∧
      (∀ log, out.1.store.texts log = numbered (Entry.note log) out.2 ∧
        ∀ queryKey, Memory.repository.texts log queryKey out.1.store =
          .ok ((numbered (Entry.note log) out.2).filter fun r => r.queryKey == queryKey)) ∧
      ∀ quiet applyHints,
        let bare := (Session.mk ⟨settings.enabled, quiet, applyHints⟩ Memory.new).run
          (events.filterMap Event.essence?)
        bare.2 = out.2 ∧ bare.1.store = out.1.store := by
  obtain ⟨hrun, hexact⟩ := run_reflects (s := ⟨settings, Memory.new⟩) reflects_new events
  rw [List.nil_append] at hrun
  refine ⟨fun normalized client => ?_, fun x hx => ⟨?_, ?_⟩, ?_, fun log => ⟨hrun.texts log, ?_⟩, ?_⟩
  · exact congrArg Except.ok (hrun.hints normalized client)
  · exact congrArg Except.ok (hexact x hx).prior.symm
  · exact congrArg Except.ok (hexact x hx).stored.symm
  · rw [← hrun.executions]
    exact congrArg Except.ok (List.filter_eq_self.2 fun r _ => rfl)
  · intro queryKey
    rw [← hrun.texts log]
    rfl
  · intro quiet applyHints
    exact @run_essence ⟨settings, Memory.new⟩ ⟨⟨settings.enabled, quiet, applyHints⟩, Memory.new⟩ []
      reflects_new rfl rfl events

end Session

end PlanFeedback.Feedback
