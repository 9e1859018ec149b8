import PlanFeedback.Command.Run
import PlanFeedback.Proofs.Hexadecimal
import PlanFeedback.Proofs.Listing
import PlanFeedback.Proofs.Snapshot

/-!
The history command. Whatever executions the loop has handled, the command prints the executions of
the digest that its argument spells, if the argument is the spelling under which they are kept, and
none otherwise.
-/
namespace PlanFeedback

open Hash (Digest)

namespace Store

/-! The history of one query is taken from the whole. -/

theorem Durable.history_some {d : Durable} {stored : List HistoryRecord}
    (h : d.history none = .ok stored) (key : String) :
    d.history (some key) = .ok (stored.filter fun r => r.queryKey == key) := by
  simp only [Durable.history, bind, Except.bind] at h ⊢
  cases hread : d.read .history with
  | error e => rw [hread] at h; cases h
  | ok table =>
      rw [hread] at h
      simp only at h ⊢
      cases hrecords : table.values.mapM (decode HistoryRecord.reader) with
      | error e => rw [hrecords] at h; cases h
      | ok records =>
          rw [hrecords] at h
          have hall : records.filter (fun _ => true) = stored := Except.ok.inj h
          rw [List.filter_eq_self.2 fun _ _ => rfl] at hall
          rw [hall]
          rfl

/-- A history that can be read at all is read as what was accepted, but for the numbers. -/
theorem Durable.Recorded.eq_of_history {d : Durable} {records stored : List HistoryRecord}
    (h : d.Recorded records) (hstored : d.history none = .ok stored) :
    stored = records.map HistoryRecord.reread := by
  by_cases hfinite : ∀ r ∈ records, r.IsFinite
  · rw [h.history hfinite none] at hstored
    rw [← Except.ok.inj hstored]
    exact List.filter_eq_self.2 fun _ _ => rfl
  · simp only [not_forall, exists_prop] at hfinite
    obtain ⟨bytes, hbytes⟩ := h.history_error hfinite none
    rw [hbytes] at hstored
    cases hstored

/-! The file of a repository. -/

theorem length_encode_le (v : Json) : (encode v).length ≤ 4 * (Json.text v).length := by
  rw [encode, Json.render, Text.utf8_ofList]
  induction Json.text v with
  | nil => exact Nat.le_refl 0
  | cons c cs ih =>
      have hc : (String.utf8EncodeChar c).length ≤ 4 := by
        rw [String.length_utf8EncodeChar]
        exact Char.utf8Size_le_four c
      rw [List.flatMap_cons, List.length_append, List.length_cons]
      omega

/-- Executions with short texts can be written to a file. -/
theorem Durable.Recorded.fits_history {d : Durable} {records : List HistoryRecord}
    (h : d.Recorded records)
    (hshort : ∀ r ∈ records, (Json.text r.json).length < 0x4000000000000000) :
    (d.tableOrEmpty .history).Fits := by
  have hrows : (d.tableOrEmpty .history).rows = records.map executionJournal.row := h.rows
  have hcount : (d.tableOrEmpty .history).rows.length < 0x10000000000000000 := by
    rw [hrows, List.length_map]
    exact h.fits
  have hvalue : ∀ r ∈ records, (encode r.json).length < 0x10000000000000000 := by
    intro r hr
    have hlength := length_encode_le r.json
    have hr' := hshort r hr
    omega
  have hkey : ∀ r ∈ records, (historyKey r.id).length < 0x10000000000000000 := by
    intro r _
    rw [historyKey, length_wordBytes]
    decide
  refine ⟨hcount, ?_, ?_⟩
  · simp only [hrows, List.forall_mem_map, executionJournal_row]
    exact hkey
  · simp only [hrows, List.forall_mem_map, executionJournal_row]
    exact hvalue

/-! What the loop keeps. -/

/-- The repository holds a history that can be read, with ids from one on, under keys that are
spellings of digests. -/
structure Durable.Keeps (d : Durable) (stored : List HistoryRecord) : Prop where
  history : d.history none = .ok stored
  ids : stored.map HistoryRecord.id = List.range' 1 stored.length
  keys : ∀ r ∈ stored, ∃ digest : Digest, r.queryKey = digest.toHex

/-- The executions that are found by a text that is read as a digest. -/
theorem Durable.Keeps.history_of_spelling {d : Durable} {stored : List HistoryRecord}
    (h : d.Keeps stored) {text : String} {digest : Digest}
    (htext : Digest.ofHex? text = some digest) :
    d.history (some text) = .ok
      (if text = digest.toHex then stored.filter fun r => r.queryKey == digest.toHex else []) := by
  rw [Durable.history_some h.history]
  split
  · rename_i heq
    rw [← heq]
  · rename_i hne
    have hnone : stored.filter (fun r => r.queryKey == text) = [] := by
      apply List.filter_eq_nil_iff.2
      intro r hr hkey
      obtain ⟨digest', hdigest'⟩ := h.keys r hr
      have htext' : digest'.toHex = text := hdigest'.symm.trans (beq_iff_eq.1 hkey)
      rw [← htext', Digest.ofHex?_toHex] at htext
      exact hne (Option.some.inj htext ▸ htext'.symm)
    rw [hnone]

end Store

namespace Feedback.Use

open Store (Durable HistoryRecord)

/-! Repositories that only the loop writes to. -/

/-- An execution is handled, or the repository is closed and opened again. -/
def IsFeedback : Use → Prop
  | execution _ _ _ | reopen _ => True
  | request _ _ => False

/-- The loop stores executions under the spellings of digests. -/
theorem offers_key {d : Durable} {use : Use} (h : use.IsFeedback) {offer : Offer}
    (hoffer : offer ∈ use.offers d) : ∃ digest : Digest, offer.record.queryKey = digest.toHex := by
  cases use with
  | request now q => exact h.elim
  | reopen creates => cases hoffer
  | execution settings now e =>
      rw [offers] at hoffer
      split at hoffer
      · rename_i report hreport
        obtain rfl := List.mem_singleton.1 hoffer
        exact ⟨report.fingerprint.digest, rfl⟩
      · cases hoffer

theorem run_key {d : Durable} {uses : List Use} (h : ∀ use ∈ uses, use.IsFeedback) :
    ∀ offer ∈ (run d uses).2, ∃ digest : Digest, offer.record.queryKey = digest.toHex := by
  induction uses generalizing d with
  | nil =>
      intro offer hoffer
      cases hoffer
  | cons use uses ih =>
      obtain ⟨huse, huses⟩ := List.forall_mem_cons.1 h
      intro offer hoffer
      rw [run] at hoffer
      rcases List.mem_append.1 hoffer with hoffer | hoffer
      · exact offers_key huse hoffer
      · exact ih huses offer hoffer

theorem run_keeps {uses : List Use} (hfeedback : ∀ use ∈ uses, use.IsFeedback)
    (hvalid : ∀ use ∈ uses, use.Valid) (hfits : uses.length < 0x10000000000000000)
    {stored : List HistoryRecord} (hstored : (run Durable.new uses).1.history none = .ok stored) :
    (run Durable.new uses).1.Keeps stored := by
  obtain ⟨-, hrecorded⟩ := run_recorded Durable.recorded_new hvalid
    (by rw [List.length_nil]; omega)
  rw [List.nil_append] at hrecorded
  obtain rfl := hrecorded.eq_of_history hstored
  refine ⟨hstored, ?_, ?_⟩
  · rw [List.map_map, List.length_map]
    exact hrecorded.ids
  · intro r hr
    obtain ⟨s, hs, rfl⟩ := List.mem_map.1 hr
    obtain ⟨i, hi, rfl⟩ := List.mem_mapIdx.1 hs
    exact run_key hfeedback _ (List.getElem_mem hi)

end Feedback.Use

namespace Command

open Feedback (Use)
open Store (Durable HistoryRecord)

variable {W : Type} {host : Host (StateM W)} {path text : String} {w w' : W} {config : Config}
  {d : Durable}

theorem run_bind_ok {α β : Type} {t : Task (StateM W) α} {a : α} (f : α → Task (StateM W) β)
    (h : t.run.run w = (.ok a, w')) : (t >>= f).run.run w = (f a).run.run w' := by
  rw [ExceptT.run_bind, StateT.run_bind, h]
  rfl

/-- A command whose argument is accepted prints what it finds in the repository that is opened. -/
theorem run_history_eq (haccepts : acceptsFingerprint (some text) = true)
    (hstart : (start host path).run.run w = (.ok (config, d), w')) {records : List HistoryRecord}
    (hlisted : listed (some text) d = .ok records) :
    (run host (.history path (some text))).run w =
      ({ output := String.join (records.map historyText) }, w') := by
  have htask : (task host (.history path (some text))).run.run w =
      (.ok { output := String.join (records.map historyText) }, w') := by
    rw [task, runHistory, haccepts]
    refine (run_bind_ok _ hstart).trans ?_
    simp only [hlisted]
    rfl
  rw [run, StateT.run_bind, htask]
  rfl

/-! A place with a repository in one file and without a configuration. -/

def place : Host (StateM Text.Bytes) where
  directories := ⟨"/", "/"⟩
  isThere path := return path != "config.toml"
  read? _ := do return some (← get)
  write _ bytes := do
    set bytes
    return true
  makeDirectory _ := return true
  now := return ⟨20000, 3600, 0⟩
  record _ _ := return ()

theorem open_place {bytes : Text.Bytes} (hdecode : Store.Snapshot.decode? bytes = some d) :
    (openRepository place "/data/plan_repo.redb").run.run bytes =
      (.ok d.createSchema, Store.Snapshot.encode d.createSchema) := by
  have hmade : ∀ directory, (liftM (place.makeDirectory directory) :
      Task (StateM Text.Bytes) Bool).run.run bytes = (.ok true, bytes) := fun _ => rfl
  have hthere : (liftM (place.isThere "/data/plan_repo.redb") :
      Task (StateM Text.Bytes) Bool).run.run bytes = (.ok true, bytes) := by
    have hname : ("/data/plan_repo.redb" != "config.toml") = true := by decide
    exact congrArg (fun there => (Except.ok there, bytes)) hname
  have hread : (liftM (place.read? "/data/plan_repo.redb") :
      Task (StateM Text.Bytes) (Option Text.Bytes)).run.run bytes = (.ok (some bytes), bytes) := rfl
  have hsaved : (save place "/data/plan_repo.redb" d.createSchema).run.run bytes =
      (.ok (), Store.Snapshot.encode d.createSchema) := rfl
  rw [openRepository]
  split
  · refine (run_bind_ok _ (hmade _)).trans ?_
    refine (run_bind_ok _ hthere).trans ?_
    refine (run_bind_ok _ hread).trans ?_
    simp only [Option.bind_some, hdecode]
    exact run_bind_ok _ hsaved
  · refine (run_bind_ok _ hthere).trans ?_
    refine (run_bind_ok _ hread).trans ?_
    simp only [Option.bind_some, hdecode]
    exact run_bind_ok _ hsaved

theorem start_place (hcomplete : d.Complete) (hfits : d.Fits) :
    (start place "config.toml").run.run (Store.Snapshot.encode d) =
      (.ok (Config.resolved ⟨"/", "/"⟩ {}, d), Store.Snapshot.encode d) := by
  have hconfig : (loadConfig place "config.toml").run.run (Store.Snapshot.encode d) =
      (.ok (Config.resolved ⟨"/", "/"⟩ {}), Store.Snapshot.encode d) := rfl
  have hlog : (openLog place {}).run.run (Store.Snapshot.encode d) =
      (.ok (), Store.Snapshot.encode d) := by
    have hlevel : Config.levelFaults "info" = [] := by cbv
    rw [openLog, hlevel]
    rfl
  have hstorage : Config.Directories.resolve ⟨"/", "/"⟩ "data/plan_repo.redb" =
      "/data/plan_repo.redb" := by cbv
  have hopen := open_place (Store.Snapshot.decode?_encode hfits)
  rw [hcomplete.createSchema] at hopen
  refine (run_bind_ok _ hconfig).trans ?_
  refine (run_bind_ok _ hlog).trans ?_
  rw [Config.resolved, hstorage]
  exact run_bind_ok _ hopen

def scanning : Feedback.Execution where
  source := .new "EXPLAIN ANALYZE SELECT * FROM t" []
  statement := .explainAnalyze (.plain .select)
  table := [.ofRelation "t"]
  plan := Plan.scan .seq 1 1000
  milliseconds? := some 1.5
  client := "psql"

def scanningUses : List Use := [.execution { quiet := true } ⟨20000, 3600, 0⟩ scanning]

/-- The digest of the query, which is spelt with letters. -/
def scanningDigest : Digest :=
  ⟨[0x3E, 0x17, 0xB0, 0x26, 0x39, 0x68, 0x40, 0x14,
    0x9A, 0x70, 0xEA, 0x28, 0x32, 0x6E, 0xBC, 0xD1], rfl⟩

theorem scanning_valid : scanning.Valid ⟨20000, 3600, 0⟩ where
  timestamp := ⟨by decide, by decide, by decide⟩
  joinCount planId directives h := by
    have hcount : ((Feedback.advise scanning).toOption.all fun r => r.2.joinCount == 0) = true := by
      decide +kernel
    rw [h] at hcount
    have hzero : directives.joinCount = 0 := beq_iff_eq.1 hcount
    omega

theorem process_scanning {result : Except Error (Option Feedback.Report)}
    (h : (Feedback.process Durable.repository { quiet := true } ⟨20000, 3600, 0⟩ scanning
      Durable.new).result = result) :
    ∃ report, result = .ok (some report) ∧ report.fingerprint.digest = scanningDigest ∧
      (report.record ⟨20000, 3600, 0⟩).PrintsBack ∧
      (Json.text ((report.record ⟨20000, 3600, 0⟩).numbered 1).json).length < 1000 := by
  have hreport : (result.toOption.join.any fun report =>
      decide (report.fingerprint.digest = scanningDigest ∧
        (report.record ⟨20000, 3600, 0⟩).PrintsBack ∧
        (Json.text ((report.record ⟨20000, 3600, 0⟩).numbered 1).json).length < 1000)) = true := by
    rw [← h]
    decide +kernel
  match result, hreport with
  | .ok (some report), hreport => exact ⟨report, rfl, of_decide_eq_true hreport⟩

theorem scanning_stored : ∃ record : HistoryRecord,
    (Use.run Durable.new scanningUses).1.Recorded [record] ∧
      (Use.run Durable.new scanningUses).1.history none = .ok [record] ∧
      (Json.text record.json).length < 1000 ∧ record.queryKey = scanningDigest.toHex := by
  obtain ⟨report, hresult, hdigest, hback, hshort⟩ := process_scanning rfl
  have hfits : ([] : List HistoryRecord).length + 1 < 0x10000000000000000 := by decide
  rcases Feedback.process_recorded Durable.recorded_new { quiet := true } scanning_valid hfits with
    ⟨-, hnone⟩ | ⟨report', hresult', -, hrecorded⟩
  · exact absurd hresult (hnone report)
  · rw [hresult] at hresult'
    obtain rfl := Option.some.inj (Except.ok.inj hresult')
    have hstored := Durable.Recorded.history_of_printsBack hrecorded
      (List.forall_mem_singleton.2 hback) none
    refine ⟨_, hrecorded, hstored, hshort, ?_⟩
    rw [← hdigest]
    rfl

theorem scanning_fits : (Use.run Durable.new scanningUses).1.Fits := by
  obtain ⟨record, hrecorded, -, hshort, -⟩ := scanning_stored
  have hothers : ∀ name ∈ Store.TableName.all, name ≠ .history →
      ∀ t ∈ (Use.run Durable.new scanningUses).1.table? name, t.Fits := by
    decide +kernel
  intro name t ht
  by_cases hname : name = .history
  · subst hname
    rw [hrecorded.complete] at ht
    obtain rfl := Option.some.inj ht
    apply hrecorded.fits_history
    intro r hr
    obtain rfl := List.mem_singleton.1 hr
    omega
  · exact hothers name name.mem_all hname t ht

theorem start_scanning :
    (start place "config.toml").run.run
        (Store.Snapshot.encode (Use.run Durable.new scanningUses).1) =
      (.ok (Config.resolved ⟨"/", "/"⟩ {}, (Use.run Durable.new scanningUses).1),
        Store.Snapshot.encode (Use.run Durable.new scanningUses).1) := by
  obtain ⟨record, hrecorded, -⟩ := scanning_stored
  exact start_place hrecorded.complete scanning_fits

theorem scanning_uses : (∀ use ∈ scanningUses, use.IsFeedback) ∧
    (∀ use ∈ scanningUses, use.Valid) ∧ scanningUses.length < 0x10000000000000000 := by
  simp only [scanningUses, List.forall_mem_singleton]
  exact ⟨trivial, scanning_valid, by decide⟩

theorem toHex_scanningDigest : scanningDigest.toHex = "3e17b026396840149a70ea28326ebcd1" := by
  cbv

/-! The listing. -/

theorem accepts_of_ofHex? {digest : Digest} (h : Digest.ofHex? text = some digest) :
    acceptsFingerprint (some text) = true := by
  simp only [acceptsFingerprint, Option.all_some, h, Option.isSome_some]

/-- In a repository that only the loop has written to, the command finds nothing under an argument
that is not the spelling of its digest, and else all executions of that digest, in the order of
their ids. -/
theorem history_lists {uses : List Use} (hfeedback : ∀ use ∈ uses, use.IsFeedback)
    (hvalid : ∀ use ∈ uses, use.Valid) (hfits : uses.length < 0x10000000000000000)
    {stored : List HistoryRecord}
    (hstored : (Use.run Durable.new uses).1.history none = .ok stored)
    (hstart : (start host path).run.run w = (.ok (config, (Use.run Durable.new uses).1), w'))
    {digest : Digest} (htext : Digest.ofHex? text = some digest) :
    let found :=
      if text = digest.toHex then stored.filter fun r => r.queryKey == digest.toHex else []
    (run host (.history path (some text))).run w =
      ({ output := String.join (found.map historyText) }, w') ∧
    stored.map HistoryRecord.id = List.range' 1 stored.length := by
  have hkeeps := Use.run_keeps hfeedback hvalid hfits hstored
  have hlisted := hkeeps.history_of_spelling htext
  exact ⟨run_history_eq (accepts_of_ofHex? htext) hstart hlisted, hkeeps.ids⟩

theorem history_lists_scanning :
    let store := (Use.run Durable.new scanningUses).1
    ∃ record, store.history none = .ok [record] ∧
      (run place (.history "config.toml" (some "3e17b026396840149a70ea28326ebcd1"))).run
          (Store.Snapshot.encode store) =
        ({ output := historyText record }, Store.Snapshot.encode store) := by
  obtain ⟨hfeedback, hvalid, hlength⟩ := scanning_uses
  obtain ⟨record, -, hstored, -, hkey⟩ := scanning_stored
  have hread : Digest.ofHex? "3e17b026396840149a70ea28326ebcd1" = some scanningDigest := by
    decide +kernel
  have hrun := (history_lists hfeedback hvalid hlength hstored start_scanning hread).1
  have hfound : [record].filter (fun r => r.queryKey == scanningDigest.toHex) = [record] := by
    apply List.filter_eq_self.2
    intro r hr
    rw [List.mem_singleton.1 hr, hkey, beq_self_eq_true]
  rw [if_pos toHex_scanningDigest.symm, hfound] at hrun
  refine ⟨record, hstored, hrun.trans ?_⟩
  rw [List.map_singleton, String.join_cons, String.join_nil, String.append_empty]

/-- In capitals the digest of a query is accepted, and the execution that is stored for it is not
found. -/
theorem capitals_unlisted :
    let store := (Use.run Durable.new scanningUses).1
    Digest.ofHex? "3E17B026396840149A70EA28326EBCD1" = some scanningDigest ∧
    (∃ record, store.history none = .ok [record] ∧ record.queryKey = scanningDigest.toHex) ∧
    (start place "config.toml").run.run (Store.Snapshot.encode store) =
      (.ok (Config.resolved ⟨"/", "/"⟩ {}, store), Store.Snapshot.encode store) ∧
    ((run place (.history "config.toml" (some "3E17B026396840149A70EA28326EBCD1"))).run
      (Store.Snapshot.encode store)).1 = { output := "" } := by
  obtain ⟨hfeedback, hvalid, hlength⟩ := scanning_uses
  obtain ⟨record, -, hstored, -, hkey⟩ := scanning_stored
  have hread : Digest.ofHex? "3E17B026396840149A70EA28326EBCD1" = some scanningDigest := by
    decide +kernel
  have hother : "3E17B026396840149A70EA28326EBCD1" ≠ scanningDigest.toHex := by
    rw [toHex_scanningDigest]
    decide
  have hlisted := (Use.run_keeps hfeedback hvalid hlength hstored).history_of_spelling hread
  rw [if_neg hother] at hlisted
  refine ⟨hread, ⟨record, hstored, hkey⟩, start_scanning, ?_⟩
  rw [run_history_eq (accepts_of_ofHex? hread) start_scanning hlisted]
  rfl

end Command

end PlanFeedback
