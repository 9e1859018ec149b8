import PlanFeedback.Proofs.Handling
import PlanFeedback.Proofs.History

/-!
The history of a repository that outlives the program, after the loop has handled executions over
it. Each execution that is reported on was accepted, and all that were accepted are listed as long
as their numbers are finite.
-/
namespace PlanFeedback.Feedback

open Store (Durable HistoryRecord Request StorageError TextLog decode decode_eq_ok_or unreadable)
open Time (Instant)

/-! Steps. -/

/-- From contents with the one property the handling ends with a value, and the value and the new
contents have the other property. -/
def Handling.Leads {σ α : Type} (P : σ → Prop) (h : Handling σ α) (Q : α → σ → Prop) : Prop :=
  ∀ w, P w.store → ∃ value w', h.from w = (.ok value, w') ∧ Q value w'.store

section Leads

variable {σ α β : Type} {P : σ → Prop} {Q : α → σ → Prop} {R : β → σ → Prop}

theorem Handling.Leads.bind {h : Handling σ α} {f : α → Handling σ β} (hh : Leads P h Q)
    (hf : ∀ value, Leads (Q value) (f value) R) : Leads P (h >>= f) R := by
  intro w hw
  obtain ⟨value, w', hfrom, hw'⟩ := hh w hw
  rw [Handling.from_bind f hfrom]
  exact hf value w' hw'

theorem Handling.leads_and {p : Prop} {h : Handling σ α} (hh : p → Leads P h Q) :
    Leads (fun s => p ∧ P s) h Q := fun w hw => hh hw.1 w hw.2

theorem leads_persist (step : Step) {operation : σ → Except StorageError (α × σ)}
    {Q : Option α → σ → Prop}
    (h : ∀ s, P s → (∃ value s', operation s = .ok (value, s') ∧ Q (some value) s') ∨
      ∃ e, operation s = .error e ∧ e.isInvariantViolation = false ∧ Q none s) :
    Handling.Leads P (persist step operation) Q := by
  intro w hw
  rcases h w.store hw with ⟨value, s', hok, hs'⟩ | ⟨e, herror, hordinary, hs⟩
  · exact ⟨some value, _, from_persist step hok, hs'⟩
  · exact ⟨none, _, from_persist_error step herror hordinary, hs⟩

end Leads

/-! The five steps. -/

/-- Bytes that cannot be read do not end the handling. -/
theorem decode_ordinary {α : Type} {reader : Json.Reader α} {bytes : Text.Bytes} {e : StorageError}
    (h : decode reader bytes = .error e) : e.isInvariantViolation = false := by
  rcases decode_eq_ok_or reader bytes with ⟨x, hx⟩ | hbytes
  · rw [hx] at h
    cases h
  · rw [hbytes] at h
    cases h
    rfl

theorem load_ordinary {d : Durable} (h : d.Complete) {normalized client : String} {e : StorageError}
    (hload : Durable.repository.load normalized client d = .error e) :
    e.isInvariantViolation = false := by
  simp only [Durable.repository, Durable.load, h.read, bind, Except.bind] at hload
  split at hload
  · rename_i bytes hbytes
    cases hdecode : decode Store.HintRecord.reader bytes with
    | error e' => rw [hdecode] at hload; cases hload; exact decode_ordinary hdecode
    | ok r => rw [hdecode] at hload; cases hload
  · cases hload

theorem replace_ordinary {d : Durable} {now : Instant} {normalized client rows : String}
    {e : StorageError} (h : Durable.repository.replace now normalized client rows d = .error e) :
    e.isInvariantViolation = false := by
  simp only [Durable.repository, Durable.replace] at h
  split at h
  · rename_i bytes hbytes
    cases hdecode : decode Store.HintRecord.reader bytes with
    | error e' => rw [hdecode] at h; cases h; exact decode_ordinary hdecode
    | ok r => rw [hdecode] at h; cases h
  · cases h

theorem recordText_ordinary {d : Durable} {log : TextLog} {now : Instant} {queryKey text : String}
    {e : StorageError} (h : Durable.repository.recordText log now queryKey text d = .error e) :
    e.isInvariantViolation = false := by
  simp only [Durable.repository, Durable.recordText, Durable.append, bind, Except.bind] at h
  split at h
  · rename_i hlast
    cases h
    rw [Durable.lastId] at hlast
    split at hlast
    · cases hlast
    · split at hlast
      · cases hlast
      · cases hlast
        rfl
  · cases h

variable {records : List HistoryRecord}

theorem leads_other {α : Type} (step : Step) (now : Instant) {q : Request}
    (hq : q.log? ≠ some .history) {operation : Durable → Except StorageError (α × Durable)}
    (hanswer : ∀ d value d', operation d = .ok (value, d') →
      (q.answer Durable.repository now d).2 = d')
    (hordinary : ∀ d, d.Complete → ∀ e, operation d = .error e → e.isInvariantViolation = false) :
    Handling.Leads (·.Recorded records) (persist step operation) fun _ d => d.Recorded records := by
  refine leads_persist step fun d hd => ?_
  cases hoperation : operation d with
  | ok result =>
      have hkept := hd.other now hq
      rw [hanswer d result.1 result.2 hoperation] at hkept
      exact Or.inl ⟨result.1, result.2, rfl, hkept⟩
  | error e => exact Or.inr ⟨e, rfl, hordinary d hd.complete e hoperation, hd⟩

theorem leads_load (now : Instant) (normalized client : String) :
    Handling.Leads (·.Recorded records)
      (persist .loadHints (looking (Durable.repository.load normalized client)))
      fun _ d => d.Recorded records := by
  refine leads_other (q := .load normalized client) _ now nofun (fun d value d' h => ?_)
    fun d hd e h => ?_
  · simp only [Request.answer, Request.ask]
    rw [looking] at h
    cases hload : Durable.repository.load normalized client d with
    | error e => rw [hload] at h; cases h
    | ok hints => rw [hload] at h; cases h; rfl
  · rw [looking] at h
    cases hload : Durable.repository.load normalized client d with
    | error e' => rw [hload] at h; cases h; exact load_ordinary hd hload
    | ok hints => rw [hload] at h; cases h

theorem leads_replace (now : Instant) (normalized client rows : String) :
    Handling.Leads (·.Recorded records)
      (persist .replaceHints (Durable.repository.replace now normalized client rows))
      fun _ d => d.Recorded records := by
  refine leads_other (q := .replace normalized client rows) _ now nofun (fun d value d' h => ?_)
    fun d _ e h => replace_ordinary h
  simp only [Request.answer, Request.ask, h]
  rfl

theorem leads_appendHistory {record : HistoryRecord} (now : Instant) (hvalid : record.Valid)
    (hfits : records.length + 1 < 0x10000000000000000) :
    Handling.Leads (·.Recorded records)
      (persist .appendHistory (Durable.repository.appendHistory record))
      fun id? d => id? = some (records.length + 1) ∧
        d.Recorded (records ++ [record.numbered (records.length + 1)]) := by
  refine leads_persist _ fun d hd => Or.inl ?_
  have happend := (hd.append now hvalid hfits).2
  simp only [Request.answer, Request.ask] at happend
  have hstored : Durable.repository.appendHistory record d = _ :=
    Durable.appendHistory_eq hd.counted hfits record
  rw [hstored] at happend
  exact ⟨_, _, hstored, rfl, happend⟩

theorem leads_recordText (step : Step) (log : TextLog) (now : Instant) (queryKey text : String) :
    Handling.Leads (·.Recorded records)
      (persist step (Durable.repository.recordText log now queryKey text))
      fun _ d => d.Recorded records := by
  have hlog : log.table ≠ .history := by cases log <;> decide
  refine leads_other (q := .recordText log queryKey text) step now
    (fun h => hlog (Option.some.inj h)) (fun d value d' h => ?_) fun d _ e h => recordText_ordinary h
  simp only [Request.answer, Request.ask, h]
  rfl

/-! One execution. -/

/-- What is to be stored in the history about a report. -/
def Report.record (r : Report) (now : Instant) : HistoryRecord :=
  .new r.fingerprint r.planId r.milliseconds r.directives r.client now

/-- The instant lies in the calendar, and the joins of the plan are counted in 64 bits. -/
structure Execution.Valid (e : Execution) (now : Instant) : Prop where
  timestamp : now.Valid
  joinCount : ∀ planId d, advise e = .ok (planId, d) → d.joinCount < 0x10000000000000000

theorem leads_persistAll (now : Instant) (e : Execution) (f : Query.Fingerprint) (planId : UInt32)
    (d : Advice.Directives) (hnow : now.Valid) (hjoins : d.joinCount < 0x10000000000000000)
    (hfits : records.length + 1 < 0x10000000000000000) :
    Handling.Leads (·.Recorded records) (persistAll Durable.repository now e f planId d)
      fun report d' => report.historyId? = some (records.length + 1) ∧
        d'.Recorded (records ++ [(report.record now).numbered (records.length + 1)]) := by
  rw [persistAll]
  refine (leads_load now _ _).bind fun prior? => (leads_replace now _ _ _).bind fun stored? => ?_
  refine (leads_appendHistory now ⟨hjoins, hnow⟩ hfits).bind fun id? => ?_
  refine Handling.leads_and fun hid => ?_
  refine (leads_recordText .recordNormalized .normalized now _ _).bind fun _ => ?_
  refine (leads_recordText .recordRaw .raw now _ _).bind fun _ => ?_
  intro w hw
  exact ⟨_, w, rfl, hid, hw⟩

/-- An execution that is reported on is the next one in the history, and no other changes
anything. -/
theorem process_recorded {d : Durable} (h : d.Recorded records) (settings : Settings) {now : Instant}
    {e : Execution} (hvalid : e.Valid now) (hfits : records.length + 1 < 0x10000000000000000) :
    (process Durable.repository settings now e d).store = d ∧
        (∀ report, (process Durable.repository settings now e d).result ≠ .ok (some report)) ∨
      ∃ report, (process Durable.repository settings now e d).result = .ok (some report) ∧
        report.historyId? = some (records.length + 1) ∧
        (process Durable.repository settings now e d).store.Recorded
          (records ++ [(report.record now).numbered (records.length + 1)]) := by
  cases hq : qualify? settings e with
  | none =>
      rw [process_skipped _ now d hq]
      exact Or.inl ⟨rfl, fun report heq => by cases heq⟩
  | some f =>
      cases ha : advise e with
      | error bad =>
          rw [process_bad_index _ now d hq ha]
          exact Or.inl ⟨rfl, fun report heq => by cases heq⟩
      | ok r =>
          obtain ⟨planId, directives⟩ := r
          have hjoins := hvalid.joinCount planId directives ha
          obtain ⟨report, w, hfrom, hid, hrecorded⟩ := leads_persistAll now e f planId directives
            hvalid.timestamp hjoins hfits { store := d } h
          rw [process_reported now hq ha h.complete.ensureSchema hfrom]
          exact Or.inr ⟨report, rfl, hid, hrecorded⟩

/-- A hash join that was run so rarely that its rows for each run are too many for a number. -/
def overflowing : Execution where
  source := .new "EXPLAIN ANALYZE SELECT * FROM t JOIN u ON t.id = u.id" []
  statement := .explainAnalyze (.plain .select)
  table := [.ofRelation "t", .ofRelation "u"]
  plan :=
    (Plan.join .hashJoin (Plan.scan .seq 1 1000) (Plan.scan .seq 2 50) 100).withCounts 1e308 1e-10
  milliseconds? := some 1.5
  client := "psql"

theorem overflowing_valid : overflowing.Valid ⟨20000, 3600, 0⟩ where
  timestamp := ⟨by decide, by decide, by decide⟩
  joinCount planId d h := by
    have hcount : ((advise overflowing).toOption.all fun r => r.2.joinCount == 1) = true := by
      decide +kernel
    rw [h] at hcount
    have hone : d.joinCount = 1 := beq_iff_eq.1 hcount
    omega

theorem process_overflowing :
    ∃ report, (process Durable.repository { quiet := true } ⟨20000, 3600, 0⟩ overflowing
        Durable.new).result = .ok (some report) ∧
      report.isFullyPersisted = true ∧ report.directives.totalDiff.isFinite = false := by
  have hreport : ((process Durable.repository { quiet := true } ⟨20000, 3600, 0⟩ overflowing
      Durable.new).result.toOption.join.any fun report =>
        report.isFullyPersisted && !report.directives.totalDiff.isFinite) = true := by
    decide +kernel
  revert hreport
  generalize (process Durable.repository { quiet := true } ⟨20000, 3600, 0⟩ overflowing
    Durable.new).result = result
  intro hreport
  match result, hreport with
  | .ok (some report), hreport =>
      obtain ⟨hpersisted, hdiff⟩ := Bool.and_eq_true_iff.1 hreport
      exact ⟨report, rfl, hpersisted, by simpa using hdiff⟩

/-- An execution is reported on as fully persisted, and the history cannot be listed. -/
theorem overflowing_unlisted :
    let outcome := process Durable.repository { quiet := true } ⟨20000, 3600, 0⟩ overflowing
      Durable.new
    ∃ report, outcome.result = .ok (some report) ∧ report.isFullyPersisted = true ∧
      report.historyId? = some 1 ∧
      ∃ bytes, outcome.store.history none = .error (unreadable bytes) := by
  obtain ⟨report, hresult, hpersisted, hdiff⟩ := process_overflowing
  have hfits : ([] : List HistoryRecord).length + 1 < 0x10000000000000000 := by decide
  rcases process_recorded Durable.recorded_new { quiet := true } overflowing_valid hfits with
    ⟨-, hnone⟩ | ⟨report', hresult', hid, hrecorded⟩
  · exact absurd hresult (hnone report)
  · obtain rfl : report' = report := by
      rw [hresult] at hresult'
      exact (Option.some.inj (Except.ok.inj hresult')).symm
    refine ⟨report', hresult, hpersisted, hid, hrecorded.history_error ?_ none⟩
    refine ⟨_, List.mem_append_right [] (List.mem_singleton.2 rfl), fun hfinite => ?_⟩
    exact absurd hfinite.2 (by rw [Bool.not_eq_true]; exact hdiff)

/-! Any use. -/

/-- What may happen to a repository: a request of its own, being opened once more, or an execution
that is handled by the loop. -/
inductive Use where
  | request (now : Instant) (q : Request)
  | reopen (creates : Bool)
  | execution (settings : Settings) (now : Instant) (e : Execution)

/-- An execution for the history, and the id that it was accepted under, if it was. -/
structure Offer where
  record : HistoryRecord
  id? : Option Nat

def listed (offers : List Offer) : List HistoryRecord :=
  offers.mapIdx fun i offer => offer.record.numbered (i + 1)

namespace Use

def Valid : Use → Prop
  | request _ (.appendHistory record) => record.Valid
  | request _ _ | reopen _ => True
  | execution _ now e => e.Valid now

def after (d : Durable) : Use → Durable
  | request now q => (q.answer Durable.repository now d).2
  | reopen creates => d.reopen creates
  | execution settings now e => (process Durable.repository settings now e d).store

/-- The record that is to be appended, or the one of the report. -/
def offers (d : Durable) : Use → List Offer
  | request _ (.appendHistory record) => [⟨record, (d.appendHistory record).toOption.map Prod.fst⟩]
  | request _ _ | reopen _ => []
  | execution settings now e =>
    match (process Durable.repository settings now e d).result with
    | .ok (some report) => [⟨report.record now, report.historyId?⟩]
    | _ => []

/-- The contents after some uses, and the executions that were offered in them. -/
def run (d : Durable) : List Use → Durable × List Offer
  | [] => (d, [])
  | use :: uses =>
    let later := run (use.after d) uses
    (later.1, use.offers d ++ later.2)

theorem offers_request {q : Request} (hq : q.log? ≠ some .history) (now : Instant) (d : Durable) :
    (request now q).offers d = [] := by
  cases q with
  | appendHistory record => exact absurd rfl hq
  | _ => rfl

/-- A use offers no execution and leaves the history alone, or it offers one, which is accepted
under the next id. -/
theorem after_recorded {d : Durable} (h : d.Recorded records) {use : Use} (hvalid : use.Valid)
    (hfits : records.length + 1 < 0x10000000000000000) :
    use.offers d = [] ∧ (use.after d).Recorded records ∨
      ∃ record, use.offers d = [⟨record, some (records.length + 1)⟩] ∧
        (use.after d).Recorded (records ++ [record.numbered (records.length + 1)]) := by
  cases use with
  | request now q =>
      by_cases hq : q.log? = some .history
      · obtain ⟨record, rfl⟩ := Store.eq_appendHistory hq
        refine Or.inr ⟨record, ?_, (h.append now hvalid hfits).2⟩
        rw [offers, Durable.appendHistory_eq h.counted hfits]
        rfl
      · exact Or.inl ⟨offers_request hq now d, h.other now hq⟩
  | reopen creates => exact Or.inl ⟨rfl, h.reopen creates⟩
  | execution settings now e =>
      rw [offers, after]
      rcases process_recorded h settings hvalid hfits with
        ⟨hstore, hresult⟩ | ⟨report, hresult, hid, h'⟩
      · rw [hstore]
        refine Or.inl ⟨?_, h⟩
        split
        · rename_i report hreport
          exact absurd hreport (hresult report)
        · rfl
      · rw [hresult]
        simp only [hid]
        exact Or.inr ⟨report.record now, rfl, h'⟩

/-- The history goes on from the executions that it holds with those that are offered. -/
theorem run_recorded {d : Durable} (h : d.Recorded records) {uses : List Use}
    (hvalid : ∀ use ∈ uses, use.Valid)
    (hfits : records.length + uses.length < 0x10000000000000000) :
    (run d uses).2.map Offer.id? =
        (List.range' (records.length + 1) (run d uses).2.length).map some ∧
      (run d uses).1.Recorded (records ++
        (run d uses).2.mapIdx fun i offer => offer.record.numbered (records.length + i + 1)) := by
  induction uses generalizing d records with
  | nil =>
      rw [run, List.mapIdx_nil, List.append_nil]
      exact ⟨rfl, h⟩
  | cons use uses ih =>
      obtain ⟨huse, huses⟩ := List.forall_mem_cons.1 hvalid
      rw [List.length_cons] at hfits
      rw [run]
      rcases after_recorded h huse (by omega) with ⟨hoffers, h'⟩ | ⟨record, hoffers, h'⟩
      · rw [hoffers]
        exact ih h' huses (by omega)
      · have hlength : (records ++ [record.numbered (records.length + 1)]).length =
            records.length + 1 := by rw [List.length_append, List.length_singleton]
        obtain ⟨hids, hrecorded⟩ := ih h' huses (by omega)
        rw [hlength] at hids hrecorded
        rw [hoffers, List.singleton_append, List.map_cons, List.length_cons, List.range'_succ,
          List.map_cons, hids, List.mapIdx_cons]
        refine ⟨rfl, ?_⟩
        rw [List.append_assoc, List.singleton_append] at hrecorded
        have hshift : (fun (i : Nat) (offer : Offer) =>
              offer.record.numbered (records.length + (i + 1) + 1)) =
            fun i offer => offer.record.numbered (records.length + 1 + i + 1) := by
          funext i offer
          rw [Nat.add_right_comm records.length 1 i, Nat.add_assoc records.length i 1]
        rw [hshift]
        exact hrecorded

/-- Whatever happens to a fresh repository, each execution that is appended to its history or
reported on is accepted under the next id. All of them are listed in their order, of any query or of
one, if their numbers are read back from their texts, and with the numbers that are read for theirs
if they are finite. After a number that is not finite no history can be listed. -/
theorem run_history (uses : List Use) (hvalid : ∀ use ∈ uses, use.Valid)
    (hfits : uses.length < 0x10000000000000000) :
    let out := run Durable.new uses
    out.2.map Offer.id? = (List.range' 1 out.2.length).map some ∧
    ((∀ offer ∈ out.2, offer.record.PrintsBack) → ∀ queryKey?, out.1.history queryKey? =
      .ok ((listed out.2).filter fun r => queryKey?.all fun key => r.queryKey == key)) ∧
    ((∀ offer ∈ out.2, offer.record.IsFinite) → ∀ queryKey?, out.1.history queryKey? =
      .ok (((listed out.2).map HistoryRecord.reread).filter fun r =>
        queryKey?.all fun key => r.queryKey == key)) ∧
    ((∃ offer ∈ out.2, ¬ offer.record.IsFinite) → ∀ queryKey?,
      ∃ bytes, out.1.history queryKey? = .error (unreadable bytes)) := by
  obtain ⟨hids, hrecorded⟩ := run_recorded Durable.recorded_new hvalid
    (by rw [List.length_nil]; omega)
  have hlisted : (run Durable.new uses).1.Recorded (listed (run Durable.new uses).2) := by
    simp only [List.length_nil, List.nil_append, Nat.zero_add] at hrecorded
    exact hrecorded
  have hall : ∀ {p : HistoryRecord → Prop},
      (∀ offer ∈ (run Durable.new uses).2, ∀ id, p (offer.record.numbered id)) →
      ∀ r ∈ listed (run Durable.new uses).2, p r := by
    intro p h r hr
    obtain ⟨i, hi, rfl⟩ := List.mem_mapIdx.1 hr
    exact h _ (List.getElem_mem hi) (i + 1)
  refine ⟨hids, fun h => ?_, fun h => ?_, fun ⟨offer, hoffer, hinfinite⟩ => ?_⟩
  · exact hlisted.history_of_printsBack (hall fun offer hoffer _ => h offer hoffer)
  · exact hlisted.history (hall fun offer hoffer _ => h offer hoffer)
  · obtain ⟨i, hi, rfl⟩ := List.mem_iff_getElem.1 hoffer
    exact hlisted.history_error ⟨_, List.mem_mapIdx.2 ⟨i, hi, rfl⟩, hinfinite⟩

end Use

/-- An execution that is appended by hand, to a repository that is then opened once more. -/
def listedUses : List Use := [
  .request ⟨20000, 0, 0⟩ (.appendHistory {
    queryKey := "k/1", queryId := 7, planId := 9, milliseconds := 1.5, rows := "Rows(a b #10)",
    scan := "", join := "HashJoin(a b)", leading := "", totalDiff := 0.25, joinCount := 1,
    client := "app", timestamp := ⟨20000, 0, 0⟩ }),
  .reopen false]

/-- The same, and an execution that is reported on and has too many rows. -/
def overflowingUses : List Use :=
  listedUses ++ [.execution { quiet := true } ⟨20000, 3600, 0⟩ overflowing]

theorem listedUses_valid : ∀ use ∈ listedUses, use.Valid := by
  have hstamp : Instant.Valid ⟨20000, 0, 0⟩ := ⟨by decide, by decide, by decide⟩
  simp only [listedUses, List.forall_mem_cons, List.not_mem_nil, false_implies, implies_true,
    Use.Valid, and_true]
  exact ⟨by decide, hstamp⟩

theorem run_history_overflowing :
    ((∀ use ∈ overflowingUses, use.Valid) ∧ overflowingUses.length < 0x10000000000000000 ∧
      (Use.run Durable.new overflowingUses).2.map Offer.id? =
        (List.range' 1 (Use.run Durable.new overflowingUses).2.length).map some) ∧
    ∀ queryKey?, (Use.run Durable.new listedUses).1.history queryKey? =
      .ok ((listed (Use.run Durable.new listedUses).2).filter fun r =>
        queryKey?.all fun key => r.queryKey == key) := by
  have hvalid : ∀ use ∈ overflowingUses, use.Valid := by
    intro use huse
    rcases List.mem_append.1 huse with huse | huse
    · exact listedUses_valid use huse
    · rw [List.mem_singleton.1 huse]
      exact overflowing_valid
  have hfits : overflowingUses.length < 0x10000000000000000 := by decide
  have hback : ∀ offer ∈ (Use.run Durable.new listedUses).2, offer.record.PrintsBack := by
    decide +kernel
  exact ⟨⟨hvalid, hfits, (Use.run_history overflowingUses hvalid hfits).1⟩,
    (Use.run_history listedUses listedUses_valid (by decide)).2.1 hback⟩

end PlanFeedback.Feedback
