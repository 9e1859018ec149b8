import PlanFeedback.Proofs.Journal

/-!
The history that a repository lists. Every execution is accepted, and all that were accepted are
listed as long as their numbers are finite, as they were if these are read back from their texts.
After one with a number that is not finite, no history is listed.
-/
namespace PlanFeedback.Store

open Time (Instant)

theorem decode_eq_ok_or {α : Type} (reader : Json.Reader α) (bytes : Text.Bytes) :
    (∃ x, decode reader bytes = .ok x) ∨ decode reader bytes = .error (unreadable bytes) := by
  rw [decode]
  cases (Json.ofBytes? bytes).bind (reader .top) with
  | none => exact Or.inr rfl
  | some x => exact Or.inl ⟨x, rfl⟩

/-- One value that cannot be read is enough that none are. -/
theorem mapM_decode_error {α : Type} {reader : Json.Reader α} {values : List Text.Bytes}
    (h : ∃ bytes ∈ values, decode reader bytes = .error (unreadable bytes)) :
    ∃ bytes, values.mapM (decode reader) = .error (unreadable bytes) := by
  induction values with
  | nil => exact absurd h (by simp)
  | cons bytes values ih =>
      rw [List.mapM_cons]
      rcases decode_eq_ok_or reader bytes with ⟨x, hx⟩ | hbytes
      · obtain ⟨bytes', hmem, hbytes'⟩ := h
        rcases List.mem_cons.1 hmem with rfl | hmem
        · rw [hx] at hbytes'
          cases hbytes'
        · obtain ⟨bytes'', hvalues⟩ := ih ⟨bytes', hmem, hbytes'⟩
          exact ⟨bytes'', by rw [hx, hvalues]; rfl⟩
      · exact ⟨bytes, by rw [hbytes]; rfl⟩

/-! Executions. -/

theorem executionJournal_row (r : HistoryRecord) :
    executionJournal.row r = (historyKey r.id, encode r.json) := rfl

theorem eq_appendHistory {q : Request} (h : q.log? = some .history) :
    ∃ record, q = .appendHistory record := by
  cases q with
  | appendHistory record => exact ⟨record, rfl⟩
  | recordText log queryKey text =>
      have htable : log.table ≠ .history := by cases log <;> decide
      exact absurd (Option.some.inj h) htable
  | _ => cases h

namespace Durable

/-- The history holds these executions, in this order. -/
structure Recorded (d : Durable) (records : List HistoryRecord) : Prop where
  complete : d.Complete
  rows : d.rows .history = records.map executionJournal.row
  counted : d.lastId .history = .ok records.length
  ids : records.map HistoryRecord.id = List.range' 1 records.length
  fits : records.length < 0x10000000000000000
  joinCount : ∀ r ∈ records, r.joinCount < 0x10000000000000000
  timestamp : ∀ r ∈ records, StampsBack r.timestamp

namespace Recorded

variable {d : Durable} {records : List HistoryRecord}

theorem id_le (h : d.Recorded records) {r : HistoryRecord} (hr : r ∈ records) :
    r.id ≤ records.length := by
  have hmem : r.id ∈ List.range' 1 records.length := h.ids ▸ List.mem_map_of_mem hr
  have := List.mem_range'_1.1 hmem
  omega

theorem id_fits (h : d.Recorded records) {r : HistoryRecord} (hr : r ∈ records) :
    r.id < 0x10000000000000000 := Nat.lt_of_le_of_lt (h.id_le hr) h.fits

theorem append (h : d.Recorded records) (now : Instant) {record : HistoryRecord}
    (hvalid : record.Valid) (hfits : records.length + 1 < 0x10000000000000000) :
    ((Request.appendHistory record).answer repository now d).1 = .ok (.id (records.length + 1)) ∧
    ((Request.appendHistory record).answer repository now d).2.Recorded
      (records ++ [record.numbered (records.length + 1)]) := by
  rw [answer_appendHistory h.counted hfits now record, ← HistoryRecord.row_numbered hvalid]
  obtain ⟨r, hr⟩ : ∃ r, r = record.numbered (records.length + 1) := ⟨_, rfl⟩
  have hid : r.id = records.length + 1 := by rw [hr]; rfl
  have hjoin : r.joinCount < 0x10000000000000000 := by rw [hr]; exact hvalid.joinCount
  have hstamp : StampsBack r.timestamp := by rw [hr]; exact stampsBack_settled hvalid.timestamp
  rw [← hr]
  refine ⟨rfl, h.complete.stored _ _ _, ?_, ?_, ?_, ?_, ?_, ?_⟩
  · -- the key of the next id is the greatest
    have hgreatest : ∀ x ∈ d.rows .history, x.1 < (executionJournal.row r).1 := by
      intro x hx
      rw [h.rows] at hx
      obtain ⟨s, hs, rfl⟩ := List.mem_map.1 hx
      have hlt : s.id < r.id := hid ▸ Nat.lt_succ_of_le (h.id_le hs)
      exact wordBytes_lt hlt (hid ▸ hfits)
    have hinsert := @insertRow_greatest _ (executionJournal.row r).2 _ hgreatest
    rw [Durable.rows, tableOrEmpty_stored d _ _ (by decide), if_pos rfl, Table.insert]
    simp only
    rw [← Durable.rows, hinsert, h.rows, List.map_append, List.map_singleton]
  · rw [lastId_stored d _ _ (by decide) hfits, if_pos rfl, List.length_append, List.length_singleton]
  · rw [List.map_append, h.ids, List.length_append, List.length_singleton, List.range'_1_concat,
      List.map_singleton, hid, Nat.add_comm]
  · rwa [List.length_append, List.length_singleton]
  · intro s hs
    rcases List.mem_append.1 hs with hs | hs
    · exact h.joinCount s hs
    · rwa [List.mem_singleton.1 hs]
  · intro s hs
    rcases List.mem_append.1 hs with hs | hs
    · exact h.timestamp s hs
    · rwa [List.mem_singleton.1 hs]

theorem other (h : d.Recorded records) (now : Instant) {q : Request}
    (hq : q.log? ≠ some .history) : (q.answer repository now d).2.Recorded records := by
  obtain ⟨htable, hcount⟩ := answer_frame d now q (by decide) hq
  refine ⟨?_, ?_, hcount.trans h.counted, h.ids, h.fits, h.joinCount, h.timestamp⟩
  · rcases answer_cases d now q with heq | ⟨r, -, heq⟩ | ⟨log, id, row, -, -, heq⟩
    · rw [heq]
      exact h.complete
    · rw [heq]
      exact h.complete.put _ _ _
    · rw [heq]
      exact h.complete.stored _ _ _
  · rw [Durable.rows, htable]
    exact h.rows

theorem reopen (h : d.Recorded records) (creates : Bool) : (d.reopen creates).Recorded records := by
  cases creates with
  | false => exact h
  | true => exact {
      complete := complete_createSchema d
      rows := h.rows
      counted := h.counted
      ids := h.ids
      fits := h.fits
      joinCount := h.joinCount
      timestamp := h.timestamp }

theorem values_eq (h : d.Recorded records) :
    (d.tableOrEmpty .history).values = records.map fun r => encode r.json := by
  have hrows := h.rows
  rw [Durable.rows] at hrows
  rw [Table.values, hrows, List.map_map]
  simp only [Function.comp_def, executionJournal_row]

theorem readable (h : d.Recorded records) {r : HistoryRecord} (hr : r ∈ records) : r.Readable :=
  ⟨h.id_fits hr, h.joinCount r hr, h.timestamp r hr⟩

theorem history (h : d.Recorded records) (hfinite : ∀ r ∈ records, r.IsFinite)
    (queryKey? : Option String) :
    d.history queryKey? = .ok ((records.map HistoryRecord.reread).filter fun r =>
      queryKey?.all fun key => r.queryKey == key) := by
  have hvalues : (records.map fun r => encode r.json).mapM (decode HistoryRecord.reader) =
      .ok (records.map HistoryRecord.reread) := by
    refine mapM_decode fun r hr => ?_
    rw [HistoryRecord.decode_encode_eq (h.readable hr), if_pos (hfinite r hr)]
  rw [← h.values_eq] at hvalues
  rw [Durable.history, h.complete.read]
  simp only [bind, Except.bind, hvalues]
  rfl

theorem history_of_printsBack (h : d.Recorded records) (hback : ∀ r ∈ records, r.PrintsBack)
    (queryKey? : Option String) :
    d.history queryKey? =
      .ok (records.filter fun r => queryKey?.all fun key => r.queryKey == key) := by
  have hsame : records.map HistoryRecord.reread = records :=
    (List.map_congr_left fun r hr => (hback r hr).reread).trans (List.map_id _)
  rw [h.history (fun r hr => (hback r hr).isFinite), hsame]

theorem history_error (h : d.Recorded records) (hinfinite : ∃ r ∈ records, ¬ r.IsFinite)
    (queryKey? : Option String) :
    ∃ bytes, d.history queryKey? = .error (unreadable bytes) := by
  obtain ⟨r, hr, hr'⟩ := hinfinite
  have hdecode := HistoryRecord.decode_encode_eq (h.readable hr)
  rw [if_neg hr'] at hdecode
  have hmem : encode r.json ∈ records.map fun r => encode r.json :=
    List.mem_map_of_mem (f := fun r : HistoryRecord => encode r.json) hr
  obtain ⟨bytes, hvalues⟩ := mapM_decode_error ⟨encode r.json, hmem, hdecode⟩
  rw [← h.values_eq] at hvalues
  refine ⟨bytes, ?_⟩
  rw [Durable.history, h.complete.read]
  simp only [bind, Except.bind, hvalues]

end Recorded

theorem recorded_new : new.Recorded [] where
  complete := complete_createSchema blank
  rows := rfl
  counted := rfl
  ids := rfl
  fits := by simp only [List.length_nil]; decide
  joinCount r hr := nomatch hr
  timestamp r hr := nomatch hr

end Durable

end PlanFeedback.Store
