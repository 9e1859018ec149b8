import PlanFeedback.Proofs.Memory
import PlanFeedback.Proofs.RecordLog
import PlanFeedback.Proofs.Request

/-!
The repository that outlives the program and the one in memory answer alike. The one holds the
records of the other, encoded, in its tables, and each request keeps it that way.
-/
namespace PlanFeedback.Store

open Text (utf8)
open Time (Instant)

/-- The request can be encoded: keys of queries have no slash, numbers and instants are read back,
and lengths have 64 bits. -/
def Request.Storable : Request → Prop
  | load normalized _ | replace normalized _ _ => (utf8 normalized).length < 0x10000000000000000
  | appendHistory record => record.Storable
  | recordText _ queryKey _ | texts _ queryKey => '/' ∉ queryKey.toList
  | ensureSchema | history _ => True

def Event.Storable : Event → Prop
  | request q => q.Storable
  | reopen _ => True

/-- The tables hold what the repository in memory holds, after at most `n` requests. Hints are held
if there are bytes under their key just where there are hints, and these are read from the bytes. -/
structure Represents (n : Nat) (m : Memory) (d : Durable) : Prop where
  ready : m.ready = true
  complete : d.Complete
  executions : executionLog.Holds d m.executions
  executions_le : m.executions.length ≤ n
  texts : ∀ log, (textLog log).Holds d (m.texts log)
  texts_le : ∀ log, (m.texts log).length ≤ n
  hints : ∀ normalized client, (utf8 normalized).length < 0x10000000000000000 →
    ((d.tableOrEmpty .hints).get? (hintKey normalized client)).map (decode HintRecord.reader) =
      (m.hints.find? (Memory.isFor normalized client)).map .ok

theorem represents_new : Represents 0 Memory.new Durable.new where
  ready := rfl
  complete := Durable.complete_createSchema _
  executions := .nil executionLog fun _ => rfl
  executions_le := Nat.le_refl 0
  texts log := by cases log <;> exact .nil _ fun _ => rfl
  texts_le log := by cases log <;> exact Nat.le_refl 0
  hints _ _ _ := rfl

theorem textLog_table_inj {log log' : TextLog} (h : (textLog log).table = (textLog log').table) :
    log = log' := by
  cases log <;> cases log' <;> first | rfl | cases h

theorem textLog_ne_history (log : TextLog) : (textLog log).table ≠ .history := by
  cases log <;> decide

theorem textLog_ne_hints (log : TextLog) : (textLog log).table ≠ .hints := by
  cases log <;> decide

namespace Represents

variable {n : Nat} {m : Memory} {d : Durable}

theorem reopen (h : Represents n m d) (creates : Bool) :
    Represents (n + 1) m (d.reopen creates) := by
  have hle := h.executions_le
  cases creates with
  | false => exact { h with
      executions_le := Nat.le_succ_of_le hle
      texts_le := fun log => Nat.le_succ_of_le (h.texts_le log) }
  | true => exact {
      ready := h.ready
      complete := Durable.complete_createSchema d
      executions := h.executions.congr rfl rfl
      executions_le := Nat.le_succ_of_le hle
      texts := fun log => (h.texts log).congr rfl rfl
      texts_le := fun log => Nat.le_succ_of_le (h.texts_le log)
      hints := h.hints }

theorem le_succ (h : Represents n m d) : Represents (n + 1) m d := h.reopen false

/-! Hints. -/

theorem hintText (h : Represents n m d) {normalized : String} (client : String)
    (hlen : (utf8 normalized).length < 0x10000000000000000) :
    (match (d.tableOrEmpty .hints).get? (hintKey normalized client) with
      | some bytes => (decode HintRecord.reader bytes).map HintRecord.hints
      | none => .ok "") = .ok (m.hintText normalized client) := by
  have hhints := h.hints normalized client hlen
  rw [Memory.hintText]
  cases hm : m.hints.find? (Memory.isFor normalized client) with
  | none =>
      rw [hm, Option.map_none, Option.map_eq_none_iff] at hhints
      simp only [hhints]
  | some r =>
      rw [hm, Option.map_some, Option.map_eq_some_iff] at hhints
      obtain ⟨bytes, hbytes, hdecode⟩ := hhints
      simp only [hbytes, hdecode, Except.map]

theorem load (h : Represents n m d) {normalized : String} (client : String)
    (hlen : (utf8 normalized).length < 0x10000000000000000) :
    d.load normalized client = .ok (m.hintText normalized client) := by
  rw [← h.hintText client hlen, Durable.load, h.complete.read]
  rfl

/-- Hints that are put under their key are found for their query and client, and all others as
before, since no other key is the same. -/
theorem hints_insert (h : Represents n m d) {r : HintRecord} (hstamp : StampsBack r.updated)
    (hlen : (utf8 r.normalized).length < 0x10000000000000000) (normalized client : String)
    (hlen' : (utf8 normalized).length < 0x10000000000000000) :
    (((d.tableOrEmpty .hints).insert (hintKey r.normalized r.client)
        (encode r.json)).get? (hintKey normalized client)).map (decode HintRecord.reader) =
      ((Memory.setHint r m.hints).find? (Memory.isFor normalized client)).map .ok := by
  rw [Table.get?_insert, Memory.find_setHint]
  by_cases hfor : Memory.isFor normalized client r
  · obtain ⟨rfl, rfl⟩ := (Memory.isFor_iff _ _ r).1 hfor
    rw [if_pos rfl, if_pos hfor, Option.map_some, Option.map_some, HintRecord.decode_encode hstamp]
  · have hkey : hintKey normalized client ≠ hintKey r.normalized r.client := by
      intro heq
      obtain ⟨rfl, rfl⟩ := hintKey_inj hlen' hlen heq
      exact hfor ((Memory.isFor_iff _ _ r).2 ⟨rfl, rfl⟩)
    rw [if_neg hkey, if_neg hfor]
    exact h.hints normalized client hlen'

theorem replace_eq (h : Represents n m d) (now : Instant) {normalized : String}
    (client rows : String) (hlen : (utf8 normalized).length < 0x10000000000000000) :
    d.replace now normalized client rows =
      .ok ((m.replaceHint now normalized client rows).1,
        d.put .hints (hintKey normalized client) (encode (HintRecord.json
          ⟨normalized, client, mergeRowHints (m.hintText normalized client) rows, now⟩))) := by
  have hprior := h.hintText client hlen
  cases hget : (d.tableOrEmpty .hints).get? (hintKey normalized client) with
  | none =>
      simp only [hget] at hprior
      simp only [Durable.replace, hget, hprior]
      rfl
  | some bytes =>
      simp only [hget] at hprior
      simp only [Durable.replace, hget, hprior]
      rfl

theorem replace (h : Represents n m d) {now : Instant} (hnow : StampsBack now)
    {normalized : String} (client rows : String)
    (hlen : (utf8 normalized).length < 0x10000000000000000) :
    ∃ d', d.replace now normalized client rows =
        .ok ((m.replaceHint now normalized client rows).1, d') ∧
      Represents (n + 1) (m.replaceHint now normalized client rows).2 d' := by
  let record : HintRecord :=
    ⟨normalized, client, mergeRowHints (m.hintText normalized client) rows, now⟩
  refine ⟨_, h.replace_eq now client rows hlen, ?_⟩
  exact {
    ready := h.ready
    complete := h.complete.put _ _ _
    executions := h.executions.put_hints (by decide) _ _
    executions_le := Nat.le_succ_of_le h.executions_le
    texts := by
      intro log
      rw [Memory.texts_replaceHint]
      exact (h.texts log).put_hints (textLog_ne_hints log) _ _
    texts_le := by
      intro log
      rw [Memory.texts_replaceHint]
      exact Nat.le_succ_of_le (h.texts_le log)
    hints := by
      rw [Durable.tableOrEmpty_put, if_pos rfl]
      exact h.hints_insert (r := record) hnow hlen }

/-! The logs. -/

theorem appendHistory (h : Represents n m d) {record : HistoryRecord} (hrecord : record.Storable)
    (hn : n + 1 < 0x10000000000000000) :
    ∃ d', d.appendHistory record = .ok ((m.appendHistory record).1, d') ∧
      Represents (n + 1) (m.appendHistory record).2 d' := by
  have hle := h.executions_le
  have hfits : m.executions.length + 1 < 0x10000000000000000 := by omega
  have happend := Durable.append_eq h.executions.counted hfits fun id =>
    (historyKey id, encode { record with id }.json)
  refine ⟨_, happend, ?_⟩
  have hstored : HistoryRecord.Storable { record with id := m.executions.length + 1 } :=
    ⟨hrecord.milliseconds, hrecord.totalDiff, hrecord.joinCount, hrecord.timestamp⟩
  have hlog := h.executions.append hstored rfl hfits
  exact {
    ready := h.ready
    complete := h.complete.stored _ _ _
    executions := hlog
    executions_le := by
      simp only [Memory.appendHistory, List.length_append, List.length_singleton]
      omega
    texts := by
      intro log
      rw [Memory.texts_appendHistory]
      exact (h.texts log).stored (textLog_ne_history log) executionLog.isLog hfits _
    texts_le := by
      intro log
      rw [Memory.texts_appendHistory]
      exact Nat.le_succ_of_le (h.texts_le log)
    hints := by
      rw [Durable.tableOrEmpty_stored d _ _ (by decide), if_neg (by decide)]
      exact h.hints }

theorem recordText (h : Represents n m d) (log : TextLog) {now : Instant} (hnow : StampsBack now)
    {queryKey : String} (hkey : '/' ∉ queryKey.toList) (text : String)
    (hn : n + 1 < 0x10000000000000000) :
    ∃ d', d.recordText log now queryKey text =
        .ok ((m.recordText log now queryKey text).1, d') ∧
      Represents (n + 1) (m.recordText log now queryKey text).2 d' := by
  have hle := h.texts_le log
  have hfits : (m.texts log).length + 1 < 0x10000000000000000 := by omega
  have hid : (m.recordText log now queryKey text).1 = (m.texts log).length + 1 := by
    cases log <;> rfl
  rw [hid]
  have happend := Durable.append_eq (h.texts log).counted hfits fun id =>
    (textKey queryKey id, encode (TextRecord.json log ⟨id, queryKey, text, now⟩))
  refine ⟨_, happend, ?_⟩
  have hstored : TextRecord.Storable ⟨(m.texts log).length + 1, queryKey, text, now⟩ :=
    ⟨hkey, hnow⟩
  have hlog := (h.texts log).append hstored rfl hfits
  exact {
    ready := (Memory.ready_recordText m log now queryKey text).trans h.ready
    complete := h.complete.stored _ _ _
    executions := by
      rw [Memory.executions_recordText]
      exact h.executions.stored (textLog_ne_history log).symm (textLog log).isLog hfits _
    executions_le := by
      rw [Memory.executions_recordText]
      exact Nat.le_succ_of_le h.executions_le
    texts := by
      intro log'
      rw [Memory.texts_recordText]
      by_cases heq : log' = log
      · subst heq
        rw [if_pos rfl]
        exact hlog
      · rw [if_neg heq]
        exact (h.texts log').stored (mt textLog_table_inj heq) (textLog log).isLog hfits _
    texts_le := by
      intro log'
      have hle' := h.texts_le log'
      rw [Memory.texts_recordText]
      split
      · rw [List.length_append, List.length_singleton]
        omega
      · omega
    hints := by
      have hhints : (m.recordText log now queryKey text).2.hints = m.hints := by
        cases log <;> rfl
      rw [hhints, Durable.tableOrEmpty_stored d _ _ (by decide),
        if_neg (textLog_ne_hints log).symm]
      exact h.hints }

theorem history (h : Represents n m d) (queryKey? : Option String) :
    d.history queryKey? =
      .ok (m.executions.filter fun r => queryKey?.all fun key => r.queryKey == key) := by
  have hall := h.executions.decode_filter (fun _ => true) (fun _ => true) (fun _ _ => rfl)
    fun r _ s hs _ _ hlt => wordBytes_lt hlt (h.executions.id_fits hs)
  have hself : m.executions.map executionLog.reread = m.executions := List.map_id _
  rw [List.filter_true, List.filter_true, hself] at hall
  rw [Durable.history, h.complete.read]
  exact congrArg (fun records => records.map fun rs : List HistoryRecord =>
    rs.filter fun r => queryKey?.all fun key => r.queryKey == key) hall

theorem list_texts (h : Represents n m d) (log : TextLog) {queryKey : String}
    (hkey : '/' ∉ queryKey.toList) :
    d.texts log queryKey = .ok ((m.texts log).filter fun r => r.queryKey == queryKey) := by
  have hrange := (h.texts log).decode_filter
    (fun row => (textKeyRange queryKey).1 ≤ row.1 ∧ row.1 ≤ (textKeyRange queryKey).2)
    (fun r => r.queryKey == queryKey) ?_ ?_
  · have hself (records : List TextRecord) : records.map (textLog log).reread = records :=
      List.map_id _
    rw [hself] at hrange
    rw [Durable.texts, h.complete.read]
    exact hrange
  · intro r hr
    have hmem := textKey_mem_range (Or.inr ⟨hkey, ((h.texts log).storable r hr).queryKey⟩)
      ((h.texts log).id_fits hr)
    rw [Bool.eq_iff_iff, decide_eq_true_iff, beq_iff_eq]
    exact hmem
  · intro r _ s hs hqr hqs hlt
    rw [beq_iff_eq] at hqr hqs
    have hkeys : textKey r.queryKey r.id < textKey s.queryKey s.id := by
      rw [hqr, hqs]
      exact textKey_lt queryKey hlt ((h.texts log).id_fits hs)
    exact hkeys

/-! Requests. -/

/-- A request is answered alike, and the tables hold the records afterwards. -/
theorem answer (h : Represents n m d) {now : Instant} (hnow : StampsBack now) {q : Request}
    (hq : q.Storable) (hn : n + 1 < 0x10000000000000000) :
    (q.answer Durable.repository now d).1 = (q.answer Memory.repository now m).1 ∧
      Represents (n + 1) (q.answer Memory.repository now m).2
        (q.answer Durable.repository now d).2 := by
  cases q with
  | ensureSchema =>
      simp only [Request.answer, Request.ask, Durable.repository, Memory.repository,
        h.complete.ensureSchema, h.ready, if_true, Except.map, true_and]
      exact h.le_succ
  | load normalized client =>
      simp only [Request.answer, Request.ask, Durable.repository, Memory.repository,
        h.load client hq, Except.map, true_and]
      exact h.le_succ
  | replace normalized client rows =>
      obtain ⟨d', hd', h'⟩ := h.replace hnow client rows hq
      simp only [Request.answer, Request.ask, Durable.repository, Memory.repository, hd',
        Except.map, true_and]
      exact h'
  | appendHistory record =>
      obtain ⟨d', hd', h'⟩ := h.appendHistory hq hn
      simp only [Request.answer, Request.ask, Durable.repository, Memory.repository, hd',
        Except.map, true_and]
      exact h'
  | recordText log queryKey text =>
      obtain ⟨d', hd', h'⟩ := h.recordText log hnow hq text hn
      simp only [Request.answer, Request.ask, Durable.repository, Memory.repository, hd',
        Except.map, true_and]
      exact h'
  | history queryKey? =>
      simp only [Request.answer, Request.ask, Durable.repository, Memory.repository,
        h.history queryKey?, Except.map, true_and]
      exact h.le_succ
  | texts log queryKey =>
      simp only [Request.answer, Request.ask, Durable.repository, Memory.repository,
        h.list_texts log hq, Except.map, true_and]
      exact h.le_succ

/-- Under one clock the answers are the same, the time stamps included. -/
theorem answers (h : Represents n m d) {clock : Nat → Instant} {events : List Event}
    (hevents : ∀ e ∈ events, e.Storable)
    (hclock : ∀ i, n ≤ i → i < n + events.length → StampsBack (clock i))
    (hn : n + events.length < 0x10000000000000000) :
    d.answers clock n events = m.answers clock n events := by
  induction events generalizing n m d with
  | nil => rfl
  | cons event events ih =>
      rw [List.length_cons] at hclock hn
      have hrest : ∀ e ∈ events, e.Storable := by
        intro e he
        exact hevents e (List.mem_cons_of_mem _ he)
      have hclock' : ∀ i, n + 1 ≤ i → i < n + 1 + events.length → StampsBack (clock i) := by
        intro i hle hlt
        exact hclock i (by omega) (by omega)
      have hn' : n + 1 + events.length < 0x10000000000000000 := by omega
      cases event with
      | request q =>
          have hnow : StampsBack (clock n) := hclock n (Nat.le_refl n) (by omega)
          have hq : q.Storable := hevents _ List.mem_cons_self
          obtain ⟨hanswer, h'⟩ := h.answer hnow hq (by omega)
          exact congrArg₂ List.cons hanswer (ih h' hrest hclock' hn')
      | reopen creates => exact ih (h.reopen creates) hrest hclock' hn'

end Represents

/-- A new repository in memory and a new one that outlives the program give the same answers to the
same requests apart from time stamps, wherever the second is closed and opened again. -/
theorem durable_answers_memory (events : List Event) (clock clock' : Nat → Instant)
    (hevents : ∀ e ∈ events, e.Storable)
    (hclock : ∀ i < events.length, StampsBack (clock i))
    (hcount : events.length < 0x10000000000000000) :
    (Durable.new.answers clock 0 events).map (Except.map Answer.timeless) =
      (Memory.new.answers clock' 0 events).map (Except.map Answer.timeless) := by
  have hsame : Durable.new.answers clock 0 events = Memory.new.answers clock 0 events :=
    represents_new.answers hevents (fun i _ hlt => hclock i (by omega)) (by omega)
  rw [hsame, Memory.answers_timeless, Memory.answers_timeless]

/-- A visit that leaves a record of each sort and finds them again. -/
def visit : List Event := [
  .request .ensureSchema,
  .request (.replace "SELECT ?" "app" "Rows(a b #10)"),
  .request (.appendHistory {
    queryKey := "k", queryId := 7, planId := 9, milliseconds := 1.5, rows := "Rows(a b #10)",
    scan := "", join := "HashJoin(a b)", leading := "", totalDiff := 0.25, joinCount := 1,
    client := "app", timestamp := ⟨20000, 3600, 5000000⟩ }),
  .request (.recordText .normalized "k" "SELECT ?"),
  .request (.recordText .raw "k" "SELECT 'é'"),
  .reopen true,
  .request (.replace "SELECT ?" "app" "Rows(b c #20)"),
  .request (.load "SELECT ?" "app"),
  .request (.history (some "k")),
  .request (.texts .normalized "k"),
  .request (.texts .raw "k")]

theorem durable_answers_memory_visit :
    (∀ e ∈ visit, e.Storable) ∧ (∀ i < visit.length, StampsBack ⟨20000, 3600 + i, 0⟩) ∧
      visit.length < 0x10000000000000000 ∧
      (Durable.new.answers (fun i => ⟨20000, 3600 + i, 0⟩) 0 visit).map
          (Except.map Answer.timeless) =
        (Memory.new.answers (fun _ => ⟨19000, 0, 0⟩) 0 visit).map (Except.map Answer.timeless) := by
  have hevents : ∀ e ∈ visit, e.Storable := by
    have hlen : (utf8 "SELECT ?").length < 0x10000000000000000 := by decide +kernel
    have hslash : '/' ∉ "k".toList := by decide
    have hmilliseconds : PrintsBack 1.5 := by
      rw [PrintsBack]
      decide +kernel
    have hdiff : PrintsBack 0.25 := by
      rw [PrintsBack]
      decide +kernel
    have hstamp : StampsBack ⟨20000, 3600, 5000000⟩ := by
      rw [StampsBack]
      decide +kernel
    simp only [visit, List.forall_mem_cons, List.not_mem_nil, false_implies, implies_true,
      Event.Storable, Request.Storable, hlen, hslash, not_false_eq_true, and_true, true_and]
    exact ⟨hmilliseconds, hdiff, by decide, hstamp⟩
  have hclock : ∀ i < visit.length, StampsBack ⟨20000, 3600 + i, 0⟩ := by
    simp only [StampsBack]
    decide +kernel
  have hcount : visit.length < 0x10000000000000000 := by decide
  exact ⟨hevents, hclock, hcount, durable_answers_memory visit _ _ hevents hclock hcount⟩

end PlanFeedback.Store
