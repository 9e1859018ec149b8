import Mathlib.Data.List.Perm.Basic
import PlanFeedback.Proofs.RecordLog
import PlanFeedback.Proofs.Request
import PlanFeedback.Proofs.Timestamp

/-!
What the tables of a repository look like after any use of it. The ids of a log are counted without
a gap, each row lies under the key of the record that is read from it, and no row of a log is ever
written over.
-/
namespace PlanFeedback.Store

open Json (Reader)
open Text (Bytes)
open Time (Instant)

/-- The id in a text key stands at its end, whatever the key of the query is. -/
theorem textKey_id {q q' : String} {i j : Nat} (hi : i < 0x10000000000000000)
    (hj : j < 0x10000000000000000) (h : textKey q i = textKey q' j) : i = j := by
  rw [textKey_eq, textKey_eq] at h
  have hlen : (wordBytes i).length = (wordBytes j).length := by
    rw [length_wordBytes, length_wordBytes]
  exact wordBytes_inj hi hj (List.append_inj_right' h hlen)

theorem TextLog.table_ne_sequences (log : TextLog) : log.table ≠ .sequences := by
  cases log <;> decide

/-- A log of texts whose query keys may have slashes in them. -/
def textJournal (log : TextLog) : RecordLog TextRecord :=
  { textLog log with
    Storable := fun r => StampsBack r.timestamp
    decode_row := by
      intro r h hid
      simp only [textLog]
      exact TextRecord.decode_encode log h hid
    key_inj := by
      intro r s _ _ hr hs h
      exact textKey_id hr hs h }

/-- The log of executions, for whose numbers others may be read. -/
def executionJournal : RecordLog HistoryRecord where
  table := .history
  id := HistoryRecord.id
  row r := (historyKey r.id, encode r.json)
  reader := HistoryRecord.reader
  reread := HistoryRecord.reread
  Storable r := r.IsFinite ∧ r.joinCount < 0x10000000000000000 ∧ StampsBack r.timestamp
  isLog := TableName.history_ne_sequences
  decode_row r h hid := by
    obtain ⟨hfinite, hjoin, hstamp⟩ := h
    simp only
    rw [HistoryRecord.decode_encode_eq ⟨hid, hjoin, hstamp⟩, if_pos hfinite]
  id_reread _ := rfl
  key_reread _ := rfl
  key_inj _ _ hr hs h := wordBytes_inj hr hs h

/-! Values. -/

theorem stampsBack_settled {i : Instant} (h : i.Valid) : StampsBack i.settled :=
  Instant.ofText?_text_settled h

theorem instantJson_settled {i : Instant} (h : i.Valid) : instantJson i.settled = instantJson i := by
  rw [instantJson, instantJson, Instant.text_settled h]

/-- The join count has 64 bits, and the instant lies in the calendar. -/
structure HistoryRecord.Valid (r : HistoryRecord) : Prop where
  joinCount : r.joinCount < 0x10000000000000000
  timestamp : r.timestamp.Valid

/-- The execution with an id, and with its instant as it is read back. -/
def HistoryRecord.numbered (r : HistoryRecord) (id : Nat) : HistoryRecord :=
  { r with id, timestamp := r.timestamp.settled }

theorem HistoryRecord.row_numbered {r : HistoryRecord} (h : r.Valid) (id : Nat) :
    executionJournal.row (r.numbered id) = executionJournal.row { r with id } := by
  simp only [executionJournal, json, numbered, instantJson_settled h.timestamp]

/-! Use. -/

def Request.log? : Request → Option TableName
  | appendHistory _ => some .history
  | recordText log _ _ => some log.table
  | ensureSchema | load _ _ | replace _ _ _ | history _ | texts _ _ => none

/-- The numbers of an execution that is stored are finite. -/
def Request.Recordable : Request → Prop
  | appendHistory record =>
    record.Valid ∧ record.milliseconds.isFinite = true ∧ record.totalDiff.isFinite = true
  | ensureSchema | load _ _ | replace _ _ _ | recordText _ _ _ | history _ | texts _ _ => True

def Event.isAppend : Event → Bool
  | request q => q.log?.isSome
  | reopen _ => false

def Event.Recordable : Event → Prop
  | request q => q.Recordable
  | reopen _ => True

/-- The contents after the events, of which the first is at the place `n`. -/
def Durable.after (clock : Nat → Instant) : (n : Nat) → List Event → Durable → Durable
  | _, [], d => d
  | n, .request q :: events, d =>
    after clock (n + 1) events (q.answer repository (clock n) d).2
  | n, .reopen creates :: events, d => after clock (n + 1) events (d.reopen creates)

/-! Well-formed contents. -/

def TableName.logs : List TableName := [.history, .normalized, .raw]

namespace Durable

def rows (d : Durable) (name : TableName) : List Row := (d.tableOrEmpty name).rows

theorem nodup_keys (d : Durable) (name : TableName) : ((d.rows name).map Prod.fst).Nodup := by
  refine List.pairwise_map.2 ((d.tableOrEmpty name).increasing.imp fun hlt heq => ?_)
  exact List.lt_irrefl _ (heq ▸ hlt)

/-- The number of rows of a log stands in eight bytes in its cell, which is absent for no rows. -/
def Counted (d : Durable) (log : TableName) : Prop :=
  match (d.tableOrEmpty .sequences).get? (sequenceKey log) with
  | none => d.rows log = []
  | some cell => cell.length = 8 ∧ ofBigEndian cell = (d.rows log).length

/-- The records that are read from the rows lie under their keys. -/
structure Reads {α : Type} (reader : Reader α) (key : α → Bytes) (rows : List Row)
    (records : List α) : Prop where
  values : rows.mapM (fun row => decode reader row.2) = .ok records
  keys : rows.map Prod.fst = records.map key

/-- What holds of the tables whatever has been asked of the repository. -/
structure WellFormed (d : Durable) : Prop where
  counted : ∀ log ∈ TableName.logs, d.Counted log
  executions : ∃ records,
    Reads HistoryRecord.reader (fun r => historyKey r.id) (d.rows .history) records ∧
      records.map HistoryRecord.id = List.range' 1 (d.rows .history).length
  texts : ∀ log : TextLog, ∃ records,
    Reads (TextRecord.reader log) (fun r => textKey r.queryKey r.id) (d.rows log.table) records ∧
      (records.map TextRecord.id).Perm (List.range' 1 (d.rows log.table).length)
  hints : ∃ records,
    Reads HintRecord.reader (fun r => hintKey r.normalized r.client) (d.rows .hints) records ∧
      (records.map fun r => (r.normalized, r.client)).Nodup

/-- One row was added to a table, under a key that no row had. -/
def Gains (d d' : Durable) (log : TableName) : Prop :=
  ∃ row : Row, (∀ x ∈ d.rows log, x.1 ≠ row.1) ∧
    (∀ x, x ∈ d'.rows log ↔ x ∈ d.rows log ∨ x = row) ∧
    (d'.rows log).length = (d.rows log).length + 1

end Durable

namespace RecordLog.Holds

variable {α : Type} {log : RecordLog α} {d : Durable} {records : List α}

theorem perm_rows (h : log.Holds d records) : (d.rows log.table).Perm (records.map log.row) := by
  have hrows : (d.rows log.table).Nodup := List.Nodup.of_map Prod.fst (d.nodup_keys log.table)
  have hrecords : (records.map log.row).Nodup := by
    refine List.pairwise_map.2 (h.pairwise_id.imp_of_mem fun {r s} hr hs hlt heq => ?_)
    have hkey := congrArg Prod.fst heq
    have := log.key_inj (h.storable r hr) (h.storable s hs) (h.id_fits hr) (h.id_fits hs) hkey
    omega
  exact (List.perm_ext_iff_of_nodup hrows hrecords).2 h.rows

theorem length_rows (h : log.Holds d records) : (d.rows log.table).length = records.length := by
  rw [h.perm_rows.length_eq, List.length_map]

theorem counted_rows (h : log.Holds d records) : d.Counted log.table := by
  have hcounted := h.counted
  rw [Durable.lastId] at hcounted
  rw [Durable.Counted]
  cases hcell : (d.tableOrEmpty .sequences).get? (Durable.sequenceKey log.table) with
  | none =>
      simp only [hcell, Except.ok.injEq] at hcounted
      exact List.eq_nil_of_length_eq_zero (h.length_rows.trans hcounted.symm)
  | some cell =>
      simp only [hcell] at hcounted
      split at hcounted
      · rename_i hlen
        exact ⟨hlen, (Except.ok.inj hcounted).trans h.length_rows.symm⟩
      · cases hcounted

theorem reads_of_rows_eq (h : log.Holds d records) {listed : List α}
    (hmem : ∀ r ∈ listed, r ∈ records) (hrows : d.rows log.table = listed.map log.row) :
    Durable.Reads log.reader (fun r => (log.row r).1) (d.rows log.table)
      (listed.map log.reread) where
  values := by
    have hdecode : (listed.map fun r => (log.row r).2).mapM (decode log.reader) =
        .ok (listed.map log.reread) :=
      mapM_decode fun r hr =>
        log.decode_row r (h.storable r (hmem r hr)) (h.id_fits (hmem r hr))
    rw [List.mapM_map] at hdecode
    rw [hrows, List.mapM_map]
    exact hdecode
  keys := by
    rw [hrows, List.map_map, List.map_map]
    exact List.map_congr_left fun r _ => (log.key_reread r).symm

theorem map_id_reread (log : RecordLog α) (listed : List α) :
    (listed.map log.reread).map log.id = listed.map log.id := by
  rw [List.map_map]
  exact List.map_congr_left fun r _ => log.id_reread r

/-- Some order of the ids is that of the rows. -/
theorem reads (h : log.Holds d records) :
    ∃ listed : List α, (listed.map log.id).Perm (records.map log.id) ∧
      Durable.Reads log.reader (fun r => (log.row r).1) (d.rows log.table) listed := by
  have hcomp := congrFun (congrFun (List.eq_map_comp_perm log.row) (d.rows log.table)) records
  obtain ⟨listed, hrows, hperm⟩ := hcomp.mpr h.perm_rows
  refine ⟨listed.map log.reread, ?_, h.reads_of_rows_eq (fun r hr => hperm.mem_iff.1 hr) hrows⟩
  rw [map_id_reread]
  exact hperm.map _

/-- The records lie in the order of their ids if their keys do. -/
theorem reads_in_order (h : log.Holds d records)
    (hkeys : ∀ r ∈ records, ∀ s ∈ records, log.id r < log.id s → (log.row r).1 < (log.row s).1) :
    ∃ listed : List α, listed.map log.id = records.map log.id ∧
      Durable.Reads log.reader (fun r => (log.row r).1) (d.rows log.table) listed := by
  have hsorted : (records.map log.row).Pairwise fun a b => a.1 < b.1 :=
    List.pairwise_map.2 (h.pairwise_id.imp_of_mem fun hr hs hlt => hkeys _ hr _ hs hlt)
  have hrows : (d.rows log.table).filter (fun _ => true) = records.map log.row := by
    refine Table.filter_rows hsorted fun x => ?_
    rw [h.rows, and_iff_left rfl]
  rw [List.filter_true] at hrows
  exact ⟨_, map_id_reread log records, h.reads_of_rows_eq (fun _ hr => hr) hrows⟩

theorem gains (h : log.Holds d records) {r : α} (hr : log.Storable r)
    (hid : log.id r = records.length + 1) (hfits : records.length + 1 < 0x10000000000000000) :
    d.Gains (d.stored log.table (records.length + 1) (log.row r)) log.table := by
  have happend := h.append hr hid hfits
  refine ⟨log.row r, h.fresh hr hid hfits, fun x => ?_, ?_⟩
  · rw [Durable.rows, happend.rows, Durable.rows, h.rows, List.map_append, List.mem_append,
      List.map_singleton, List.mem_singleton]
  · rw [happend.length_rows, h.length_rows, List.length_append, List.length_singleton]

end RecordLog.Holds

/-! Requests. -/

namespace Durable

/-- The records in the tables, of which no log has more than `n`. -/
structure Journaled (n : Nat) (d : Durable) : Prop where
  executions : ∃ records, executionJournal.Holds d records ∧ records.length ≤ n
  texts : ∀ log, ∃ records, (textJournal log).Holds d records ∧ records.length ≤ n
  hints : ∀ row ∈ d.rows .hints, ∃ r : HintRecord, StampsBack r.updated ∧
    row = (hintKey r.normalized r.client, encode r.json)

theorem replace_eq_ok {d d' : Durable} {now : Instant} {normalized client rows text : String}
    (h : d.replace now normalized client rows = .ok (text, d')) :
    d' = d.put .hints (hintKey normalized client)
      (encode (HintRecord.json ⟨normalized, client, text, now⟩)) := by
  rw [replace] at h
  split at h
  · rename_i bytes hbytes
    cases hdecode : decode HintRecord.reader bytes with
    | error e => rw [hdecode] at h; cases h
    | ok r => rw [hdecode] at h; cases h; rfl
  · cases h
    rfl

theorem append_eq_ok {d d' : Durable} {log : TableName} {row : Nat → Row} {id : Nat}
    (h : d.append log row = .ok (id, d')) :
    id < 0x10000000000000000 ∧ d' = d.stored log id (row id) := by
  rw [append] at h
  cases hlast : d.lastId log with
  | error e => rw [hlast] at h; cases h
  | ok n =>
      rw [hlast] at h
      cases h
      exact ⟨Nat.mod_lt _ (by decide), rfl⟩

/-- All that a request can do to the tables. -/
theorem answer_cases (d : Durable) (now : Instant) (q : Request) :
    (q.answer repository now d).2 = d ∨
    (∃ r : HintRecord, r.updated = now ∧
      (q.answer repository now d).2 = d.put .hints (hintKey r.normalized r.client) (encode r.json)) ∨
    ∃ log id row, q.log? = some log ∧ id < 0x10000000000000000 ∧
      (q.answer repository now d).2 = d.stored log id row := by
  cases q with
  | ensureSchema =>
      simp only [Request.answer, Request.ask, repository]
      cases d.ensureSchema <;> exact Or.inl rfl
  | load normalized client =>
      simp only [Request.answer, Request.ask, repository]
      cases d.load normalized client <;> exact Or.inl rfl
  | history queryKey? =>
      simp only [Request.answer, Request.ask, repository]
      cases d.history queryKey? <;> exact Or.inl rfl
  | texts log queryKey =>
      simp only [Request.answer, Request.ask, repository]
      cases d.texts log queryKey <;> exact Or.inl rfl
  | replace normalized client rows =>
      simp only [Request.answer, Request.ask, repository]
      cases hreplace : d.replace now normalized client rows with
      | error e => exact Or.inl rfl
      | ok result =>
          exact Or.inr (Or.inl ⟨⟨normalized, client, result.1, now⟩, rfl, replace_eq_ok hreplace⟩)
  | appendHistory record =>
      simp only [Request.answer, Request.ask, repository]
      cases happend : d.appendHistory record with
      | error e => exact Or.inl rfl
      | ok result =>
          obtain ⟨hid, heq⟩ := append_eq_ok happend
          exact Or.inr (Or.inr ⟨_, _, _, rfl, hid, heq⟩)
  | recordText log queryKey text =>
      simp only [Request.answer, Request.ask, repository]
      cases happend : d.recordText log now queryKey text with
      | error e => exact Or.inl rfl
      | ok result =>
          obtain ⟨hid, heq⟩ := append_eq_ok happend
          exact Or.inr (Or.inr ⟨_, _, _, rfl, hid, heq⟩)

theorem ne_of_mem_logs {log : TableName} (h : log ∈ TableName.logs) :
    log ≠ .hints ∧ log ≠ .sequences := by
  revert log
  decide

theorem log_mem_logs {q : Request} {log : TableName} (h : q.log? = some log) :
    log ∈ TableName.logs := by
  cases q with
  | appendHistory record => cases h; decide
  | recordText log' queryKey text => cases h; cases log' <;> decide
  | _ => cases h

/-- A request leaves a log that it does not append to as it was. -/
theorem answer_frame (d : Durable) (now : Instant) (q : Request) {log : TableName}
    (hlog : log ∈ TableName.logs) (hq : q.log? ≠ some log) :
    (q.answer repository now d).2.tableOrEmpty log = d.tableOrEmpty log ∧
      (q.answer repository now d).2.lastId log = d.lastId log := by
  obtain ⟨hhints, hsequences⟩ := ne_of_mem_logs hlog
  rcases answer_cases d now q with heq | ⟨r, -, heq⟩ | ⟨other, id, row, hother, hid, heq⟩
  · rw [heq]
    exact ⟨rfl, rfl⟩
  · rw [heq]
    exact ⟨(tableOrEmpty_put d _ _ _ _).trans (if_neg hhints), rfl⟩
  · have hne : log ≠ other := fun h => hq (h ▸ hother)
    rw [heq]
    exact ⟨(tableOrEmpty_stored d id row hsequences).trans (if_neg hne),
      (lastId_stored d log row (ne_of_mem_logs (log_mem_logs hother)).2 hid).trans (if_neg hne)⟩

/-- The rows of hints stay those of their records. -/
theorem Journaled.answer_hints {n : Nat} {d : Durable} (h : d.Journaled n) {now : Instant}
    (hnow : now.Valid) (q : Request) :
    ∀ row ∈ (q.answer repository now d).2.rows .hints, ∃ r : HintRecord, StampsBack r.updated ∧
      row = (hintKey r.normalized r.client, encode r.json) := by
  rcases answer_cases d now q with heq | ⟨r, hr, heq⟩ | ⟨other, id, row, hother, hid, heq⟩
  · rw [heq]
    exact h.hints
  · intro row hrow
    rw [heq, rows, tableOrEmpty_put, if_pos rfl] at hrow
    rcases mem_insertRow hrow with rfl | hrow
    · refine ⟨{ r with updated := now.settled }, stampsBack_settled hnow, ?_⟩
      simp only [HintRecord.json, instantJson_settled hnow, hr]
    · exact h.hints row hrow
  · have hne : TableName.hints ≠ other := (ne_of_mem_logs (log_mem_logs hother)).1.symm
    rw [heq, rows, tableOrEmpty_stored d id row (by decide), if_neg hne]
    exact h.hints

theorem appendHistory_eq {d : Durable} {n : Nat} (hcounted : d.lastId .history = .ok n)
    (hfits : n + 1 < 0x10000000000000000) (record : HistoryRecord) :
    d.appendHistory record =
      .ok (n + 1, d.stored .history (n + 1) (executionJournal.row { record with id := n + 1 })) := by
  rw [appendHistory, append_eq hcounted hfits]
  rfl

theorem answer_appendHistory {d : Durable} {n : Nat} (hcounted : d.lastId .history = .ok n)
    (hfits : n + 1 < 0x10000000000000000) (now : Instant) (record : HistoryRecord) :
    (Request.appendHistory record).answer repository now d =
      (.ok (.id (n + 1)),
        d.stored .history (n + 1) (executionJournal.row { record with id := n + 1 })) := by
  simp only [Request.answer, Request.ask, repository, appendHistory_eq hcounted hfits]
  rfl

theorem answer_recordText {d : Durable} {log : TextLog} {n : Nat}
    (hcounted : d.lastId log.table = .ok n) (hfits : n + 1 < 0x10000000000000000) (now : Instant)
    (queryKey text : String) :
    (Request.recordText log queryKey text).answer repository now d =
      (.ok (.id (n + 1)), d.stored log.table (n + 1)
        ((textJournal log).row ⟨n + 1, queryKey, text, now⟩)) := by
  simp only [Request.answer, Request.ask, repository, recordText, append_eq hcounted hfits]
  rfl

/-- A log that was not appended to holds what it held. -/
theorem holds_answer {α : Type} {log : RecordLog α} {d : Durable} {records : List α}
    (h : log.Holds d records) (now : Instant) (q : Request) (hlog : log.table ∈ TableName.logs)
    (hq : q.log? ≠ some log.table) : log.Holds (q.answer repository now d).2 records := by
  obtain ⟨htable, hcount⟩ := answer_frame d now q hlog hq
  exact h.congr htable hcount

theorem stored_answer {α : Type} {log : RecordLog α} {d : Durable} {records : List α} {n : Nat}
    (h : log.Holds d records) (hle : records.length ≤ n) (hn : n + 1 < 0x10000000000000000)
    {now : Instant} {q : Request} (r : α) (hr : log.Storable r) (hid : log.id r = records.length + 1)
    (hanswer : q.answer repository now d =
      (.ok (.id (records.length + 1)), d.stored log.table (records.length + 1) (log.row r))) :
    ((q.answer repository now d).1 = .ok (.id ((d.rows log.table).length + 1)) ∧
      d.Gains (q.answer repository now d).2 log.table) ∧
    ∃ records, log.Holds (q.answer repository now d).2 records ∧ records.length ≤ n + 1 := by
  have hfits : records.length + 1 < 0x10000000000000000 := by omega
  rw [hanswer, h.length_rows]
  refine ⟨⟨rfl, h.gains hr hid hfits⟩, records ++ [r], h.append hr hid hfits, ?_⟩
  rw [List.length_append, List.length_singleton]
  omega

/-- What a request does to the logs: it adds a row under the next id or leaves them. -/
def Counts (d : Durable) (now : Instant) (q : Request) : Prop :=
  ∀ log ∈ TableName.logs,
    if q.log? = some log then
      (q.answer repository now d).1 = .ok (.id ((d.rows log).length + 1)) ∧
        d.Gains (q.answer repository now d).2 log
    else (q.answer repository now d).2.rows log = d.rows log

namespace Journaled

variable {n : Nat} {d : Durable}

/-- A request that appends to no log. -/
theorem other (h : d.Journaled n) {now : Instant} (hnow : now.Valid) {q : Request}
    (hq : q.log? = none) : (q.answer repository now d).2.Journaled n where
  executions := by
    obtain ⟨records, hrecords, hle⟩ := h.executions
    exact ⟨records, holds_answer hrecords now q (by decide) (by rw [hq]; exact nofun), hle⟩
  texts log := by
    obtain ⟨records, hrecords, hle⟩ := h.texts log
    refine ⟨records, holds_answer hrecords now q ?_ (by rw [hq]; exact nofun), hle⟩
    cases log <;> decide
  hints := h.answer_hints hnow q

/-- A request that appends to a log is answered with the next id, and one row is new. -/
theorem append (h : d.Journaled n) {now : Instant} (hnow : now.Valid) {q : Request}
    {log : TableName} (hlog : q.log? = some log) (hq : q.Recordable)
    (hn : n + 1 < 0x10000000000000000) :
    ((q.answer repository now d).1 = .ok (.id ((d.rows log).length + 1)) ∧
      d.Gains (q.answer repository now d).2 log) ∧
      (q.answer repository now d).2.Journaled (n + 1) := by
  have hframe : ∀ {α : Type} (log' : RecordLog α), log'.table ∈ TableName.logs →
      log'.table ≠ log → (∃ records, log'.Holds d records ∧ records.length ≤ n) →
      ∃ records, log'.Holds (q.answer repository now d).2 records ∧ records.length ≤ n + 1 := by
    rintro α log' hmem hne ⟨records, hrecords, hle⟩
    have hneq : q.log? ≠ some log'.table := by
      rw [hlog]
      exact fun heq => hne (Option.some.inj heq).symm
    exact ⟨records, holds_answer hrecords now q hmem hneq, by omega⟩
  cases q with
  | appendHistory record =>
      cases hlog
      obtain ⟨hvalid, hmilliseconds, hdiff⟩ := hq
      obtain ⟨records, hrecords, hle⟩ := h.executions
      have hanswer := answer_appendHistory hrecords.counted (by omega) now record
      rw [← HistoryRecord.row_numbered hvalid] at hanswer
      obtain ⟨hnext, hexecutions⟩ := stored_answer hrecords hle hn
        (record.numbered (records.length + 1))
        ⟨⟨hmilliseconds, hdiff⟩, hvalid.joinCount, stampsBack_settled hvalid.timestamp⟩ rfl hanswer
      refine ⟨hnext, hexecutions, fun log => ?_, h.answer_hints hnow _⟩
      exact hframe _ (by cases log <;> decide) (by cases log <;> decide) (h.texts log)
  | recordText log' queryKey text =>
      cases hlog
      obtain ⟨records, hrecords, hle⟩ := h.texts log'
      have hanswer := answer_recordText hrecords.counted (by omega) now queryKey text
      have hrow : (textJournal log').row ⟨records.length + 1, queryKey, text, now⟩ =
          (textJournal log').row ⟨records.length + 1, queryKey, text, now.settled⟩ := by
        simp only [textJournal, textLog, TextRecord.json, instantJson_settled hnow]
      rw [hrow] at hanswer
      obtain ⟨hnext, htexts⟩ := stored_answer hrecords hle hn
        ⟨records.length + 1, queryKey, text, now.settled⟩ (stampsBack_settled hnow) rfl hanswer
      refine ⟨hnext, hframe _ (by decide) (by cases log' <;> decide) h.executions, fun log => ?_,
        h.answer_hints hnow _⟩
      by_cases hsame : log = log'
      · exact hsame ▸ htexts
      · refine hframe _ (by cases log <;> decide) (fun heq => ?_) (h.texts log)
        cases log <;> cases log' <;> first | exact hsame rfl | cases heq
  | _ => cases hlog

theorem reopen (h : d.Journaled n) (creates : Bool) : (d.reopen creates).Journaled n := by
  cases creates with
  | false => exact h
  | true => exact {
      executions := by
        obtain ⟨records, hrecords, hle⟩ := h.executions
        exact ⟨records, hrecords.congr rfl rfl, hle⟩
      texts := fun log => by
        obtain ⟨records, hrecords, hle⟩ := h.texts log
        exact ⟨records, hrecords.congr rfl rfl, hle⟩
      hints := h.hints }

theorem hints_read {rows : List Row} (h : ∀ row ∈ rows, ∃ r : HintRecord, StampsBack r.updated ∧
    row = (hintKey r.normalized r.client, encode r.json)) :
    ∃ records, Reads HintRecord.reader (fun r => hintKey r.normalized r.client) rows records := by
  induction rows with
  | nil => exact ⟨[], rfl, rfl⟩
  | cons row rows ih =>
      obtain ⟨⟨r, hr, rfl⟩, hrows⟩ := List.forall_mem_cons.1 h
      obtain ⟨records, hvalues, hkeys⟩ := ih hrows
      refine ⟨r :: records, ?_, ?_⟩
      · rw [List.mapM_cons, HintRecord.decode_encode hr, hvalues]
        rfl
      · rw [List.map_cons, List.map_cons, hkeys]

theorem wellFormed (h : d.Journaled n) : d.WellFormed where
  counted log hlog := by
    obtain ⟨records, hrecords, -⟩ := h.executions
    obtain ⟨normalized, hnormalized, -⟩ := h.texts .normalized
    obtain ⟨raw, hraw, -⟩ := h.texts .raw
    simp only [TableName.logs, List.mem_cons, List.not_mem_nil, or_false] at hlog
    rcases hlog with rfl | rfl | rfl
    · exact hrecords.counted_rows
    · exact hnormalized.counted_rows
    · exact hraw.counted_rows
  executions := by
    obtain ⟨records, hrecords, -⟩ := h.executions
    have hlength : (d.rows .history).length = records.length := hrecords.length_rows
    obtain ⟨listed, hids, hreads⟩ :=
      hrecords.reads_in_order fun r _ s hs hlt => wordBytes_lt hlt (hrecords.id_fits hs)
    refine ⟨listed, hreads, ?_⟩
    rw [hlength, ← hrecords.ids]
    exact hids
  texts log := by
    obtain ⟨records, hrecords, -⟩ := h.texts log
    obtain ⟨listed, hperm, hreads⟩ := hrecords.reads
    have hlength : (d.rows log.table).length = records.length := hrecords.length_rows
    refine ⟨listed, hreads, ?_⟩
    rw [hlength, ← hrecords.ids]
    exact hperm
  hints := by
    obtain ⟨records, hreads⟩ := hints_read h.hints
    refine ⟨records, hreads, ?_⟩
    have hnodup := d.nodup_keys .hints
    -- rows with the same pair would have the same key
    rw [hreads.keys] at hnodup
    refine List.Nodup.of_map (fun pair : String × String => hintKey pair.1 pair.2) ?_
    rwa [List.map_map]

theorem answer (h : d.Journaled n) {now : Instant} (hnow : now.Valid) {q : Request}
    (hq : q.Recordable)
    (hn : n + (if (Event.request q).isAppend then 1 else 0) < 0x10000000000000000) :
    Counts d now q ∧
      (q.answer repository now d).2.Journaled (n + if (Event.request q).isAppend then 1 else 0) := by
  have hframe : ∀ log ∈ TableName.logs, q.log? ≠ some log →
      (q.answer repository now d).2.rows log = d.rows log := by
    intro log hlog hne
    exact congrArg Table.rows (answer_frame d now q hlog hne).1
  cases hlog : q.log? with
  | none =>
      have hnone : (Event.request q).isAppend = false := by rw [Event.isAppend, hlog]; rfl
      rw [hnone]
      refine ⟨fun log hmem => ?_, h.other hnow hlog⟩
      rw [if_neg (by rw [hlog]; exact nofun)]
      exact hframe log hmem (by rw [hlog]; exact nofun)
  | some log =>
      have hsome : (Event.request q).isAppend = true := by rw [Event.isAppend, hlog]; rfl
      rw [hsome] at hn ⊢
      obtain ⟨hnext, hjournaled⟩ := h.append hnow hlog hq hn
      refine ⟨fun log' hmem => ?_, hjournaled⟩
      by_cases hsame : q.log? = some log'
      · rw [if_pos hsame]
        obtain rfl : log = log' := Option.some.inj (hlog.symm.trans hsame)
        exact hnext
      · rw [if_neg hsame]
        exact hframe log' hmem hsame

end Journaled

theorem journaled_blank : blank.Journaled 0 where
  executions := ⟨[], .nil executionJournal fun _ => rfl, Nat.le_refl 0⟩
  texts log := ⟨[], .nil (textJournal log) fun _ => rfl, Nat.le_refl 0⟩
  hints row hrow := by cases hrow

theorem after_append (clock : Nat → Instant) (n : Nat) (events events' : List Event) (d : Durable) :
    d.after clock n (events ++ events') =
      (d.after clock n events).after clock (n + events.length) events' := by
  induction events generalizing n d with
  | nil => rfl
  | cons event events ih =>
      have hlength : n + (event :: events).length = n + 1 + events.length := by
        rw [List.length_cons]
        omega
      rw [hlength]
      cases event with
      | request q => exact ih (n + 1) _
      | reopen creates => exact ih (n + 1) _

/-- All rows of the logs stay. -/
theorem Journaled.after {n : Nat} {d : Durable} (h : d.Journaled n) {clock : Nat → Instant}
    {m : Nat} {events : List Event} (hevents : ∀ e ∈ events, e.Recordable)
    (hclock : ∀ i < events.length, (clock (m + i)).Valid)
    (hcount : n + events.countP Event.isAppend < 0x10000000000000000) :
    (d.after clock m events).Journaled (n + events.countP Event.isAppend) ∧
      ∀ log ∈ TableName.logs, d.rows log ⊆ (d.after clock m events).rows log := by
  induction events generalizing n m d with
  | nil => exact ⟨h, fun log _ => List.Subset.refl _⟩
  | cons event events ih =>
      have hrest := fun e he => hevents e (List.mem_cons_of_mem event he)
      have hclock' : ∀ i < events.length, (clock (m + 1 + i)).Valid := by
        intro i hi
        rw [Nat.add_assoc, Nat.add_comm 1 i]
        exact hclock (i + 1) (Nat.succ_lt_succ hi)
      rw [List.countP_cons] at hcount ⊢
      cases event with
      | request q =>
          have hnow : (clock m).Valid := hclock 0 (Nat.succ_pos _)
          have hq : q.Recordable := hevents _ List.mem_cons_self
          obtain ⟨hcounts, h'⟩ := h.answer hnow hq (by omega)
          obtain ⟨hjournaled, hrows⟩ := ih h' hrest hclock' (by omega)
          rw [Nat.add_right_comm, Nat.add_assoc] at hjournaled
          refine ⟨hjournaled, fun log hlog => ?_⟩
          have hkept : d.rows log ⊆ (q.answer repository (clock m) d).2.rows log := by
            have hcount := hcounts log hlog
            split at hcount
            · obtain ⟨-, row, -, hrows, -⟩ := hcount
              exact fun x hx => (hrows x).2 (Or.inl hx)
            · exact hcount ▸ List.Subset.refl _
          exact List.Subset.trans hkept (hrows log hlog)
      | reopen creates =>
          simp only [Event.isAppend, Bool.false_eq_true, if_false, Nat.add_zero] at hcount ⊢
          obtain ⟨hjournaled, hrows⟩ := ih (h.reopen creates) hrest hclock' hcount
          refine ⟨hjournaled, fun log hlog => ?_⟩
          have hsame : (d.reopen creates).rows log = d.rows log := by cases creates <;> rfl
          rw [← hsame]
          exact hrows log hlog

/-- However a fresh repository has been used, its tables are well-formed. Each append is answered
with the next id and adds a row under a new key, no other request touches a log, and all rows of a
log stay. -/
theorem after_wellFormed (clock : Nat → Instant) (events : List Event)
    (hevents : ∀ e ∈ events, e.Recordable)
    (hclock : ∀ i < events.length, (clock i).Valid)
    (hcount : events.countP Event.isAppend < 0x10000000000000000) :
    (blank.after clock 0 events).WellFormed ∧
    (∀ before q rest, events = before ++ .request q :: rest →
      (blank.after clock 0 before).Counts (clock before.length) q) ∧
    ∀ before rest, events = before ++ rest → ∀ log ∈ TableName.logs,
      (blank.after clock 0 before).rows log ⊆ (blank.after clock 0 events).rows log := by
  have hbefore : ∀ before rest, events = before ++ rest →
      (blank.after clock 0 before).Journaled (0 + before.countP Event.isAppend) := by
    rintro before rest rfl
    rw [List.countP_append] at hcount
    rw [List.length_append] at hclock
    have hevents' := fun e he => hevents e (List.mem_append_left rest he)
    refine (journaled_blank.after hevents' (fun i hi => ?_) (by omega)).1
    rw [Nat.zero_add]
    exact hclock i (by omega)
  refine ⟨(hbefore events [] (List.append_nil events).symm).wellFormed, ?_, ?_⟩
  · rintro before q rest rfl
    rw [List.countP_append, List.countP_cons] at hcount
    rw [List.length_append, List.length_cons] at hclock
    have hq : q.Recordable :=
      hevents (.request q) (List.mem_append_right before List.mem_cons_self)
    exact ((hbefore before _ rfl).answer (hclock _ (by omega)) hq (by omega)).1
  · rintro before rest rfl
    rw [List.countP_append] at hcount
    rw [List.length_append] at hclock
    have hevents' := fun e he => hevents e (List.mem_append_right before he)
    rw [after_append]
    refine ((hbefore before rest rfl).after hevents' (fun i hi => ?_) (by omega)).2
    rw [Nat.zero_add]
    exact hclock _ (by omega)

/-- Two visits to a fresh file, with a slash in the key of a query. -/
def visits : List Event := [
  .reopen true,
  .request (.appendHistory {
    queryKey := "k/1", queryId := 7, planId := 9, milliseconds := 1.5, rows := "Rows(a b #10)",
    scan := "", join := "HashJoin(a b)", leading := "", totalDiff := 0.25, joinCount := 1,
    client := "app", timestamp := ⟨20000, 3600, 5000000⟩ }),
  .request (.recordText .raw "k/1" "SELECT 1"),
  .reopen false,
  .request (.replace "SELECT ?" "app" "Rows(a b #10)"),
  .request (.recordText .raw "k" "SELECT 2")]

theorem after_wellFormed_visits :
    (∀ e ∈ visits, e.Recordable) ∧ (∀ i < visits.length, Instant.Valid ⟨20000, 3600 + i, 0⟩) ∧
      visits.countP Event.isAppend < 0x10000000000000000 ∧
      (blank.after (fun i => ⟨20000, 3600 + i, 0⟩) 0 visits).WellFormed := by
  have hevents : ∀ e ∈ visits, e.Recordable := by
    have hmilliseconds : (1.5 : Float).isFinite = true := by decide +kernel
    have hdiff : (0.25 : Float).isFinite = true := by decide +kernel
    have hstamp : Instant.Valid ⟨20000, 3600, 5000000⟩ := ⟨by decide, by decide, by decide⟩
    simp only [visits, List.forall_mem_cons, List.not_mem_nil, false_implies, implies_true,
      Event.Recordable, Request.Recordable, and_true, true_and]
    exact ⟨⟨by decide, hstamp⟩, hmilliseconds, hdiff⟩
  have hclock : ∀ i < visits.length, Instant.Valid ⟨20000, 3600 + i, 0⟩ := by
    intro i hi
    have hlength : visits.length = 6 := rfl
    have hyear : Time.isYear (Time.Date.ofDays 20000).year = true := by decide
    exact ⟨hyear, (by omega : 3600 + i < 86400), (by decide : 0 < 2000000000)⟩
  have hcount : visits.countP Event.isAppend < 0x10000000000000000 := by decide
  exact ⟨hevents, hclock, hcount, (after_wellFormed _ visits hevents hclock hcount).1⟩

end Durable

end PlanFeedback.Store
