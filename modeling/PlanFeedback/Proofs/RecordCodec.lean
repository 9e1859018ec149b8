import PlanFeedback.Proofs.JsonNumber
import PlanFeedback.Proofs.JsonText
import PlanFeedback.Store.Codec

/-!
Records are read back from their bytes, provided that the numbers and the instants in them are read
back from theirs. A finite number is read back, or another finite number is read for it.
-/
namespace PlanFeedback.Store

open Json (Reader Printable PrintableMembers Place Fields knownMembers)
open Time (Instant)

/-- The number that is read for the text of a number. There is none for a number that is not finite,
which is printed as null. -/
def reread? (x : Float) : Option Float := (Decimal.recordNumeral? x).bind Json.floatOf?

/-- The number is read back from its text. -/
def PrintsBack (x : Float) : Prop := reread? x = some x

instance (x : Float) : Decidable (PrintsBack x) := inferInstanceAs (Decidable (_ = _))

/-- The instant is read back from its text. -/
def StampsBack (i : Instant) : Prop := Instant.ofText? i.text = some i

theorem printable_floatJson (x : Float) : Printable (floatJson x) := by
  rw [floatJson]
  split
  · rename_i n h
    exact Decimal.wellFormed_recordNumeral? h
  · exact trivial

theorem float_floatJson (x : Float) (p : Place) : Json.float p (floatJson x) = reread? x := by
  rw [floatJson, reread?]
  cases Decimal.recordNumeral? x <;> rfl

/-- Some number is read for the finite numbers. -/
theorem isSome_reread? (x : Float) : (reread? x).isSome = x.isFinite := by
  rw [Bool.eq_iff_iff, Decimal.isFinite_iff]
  constructor
  · intro h
    obtain ⟨y, hy⟩ := Option.isSome_iff_exists.1 h
    obtain ⟨n, hn, -⟩ := Option.bind_eq_some_iff.1 hy
    obtain ⟨negative, b, hsort, -⟩ := Decimal.recordNumeral?_eq_some.1 hn
    exact ⟨negative, b, hsort⟩
  · rintro ⟨negative, b, hsort⟩
    rw [reread?, Decimal.recordNumeral?_eq_some.2 ⟨negative, b, hsort, rfl⟩, Option.bind_some]
    exact Json.floatOf?_recordNumeral_isSome negative (Decimal.toBits_of_sort hsort).2

theorem PrintsBack.isFinite {x : Float} (h : PrintsBack x) : x.isFinite = true := by
  rw [← isSome_reread?, h]
  rfl

/-- A number is read back if its digits have 53 bits and the point is near to the last of them. -/
theorem printsBack_short {x : Float} {n : Decimal.Numeral} (hn : Decimal.recordNumeral? x = some n)
    (hdigits : n.digits < 2 ^ 53) (hleast : -22 ≤ n.exponent) (hmost : n.exponent ≤ 22) :
    PrintsBack x := by
  obtain ⟨negative, b, hsort, rfl⟩ := Decimal.recordNumeral?_eq_some.1 hn
  have hread : ∃ y, Json.floatOf? (Decimal.recordNumeral negative b) = some y ∧
      Decimal.sort y = .finite negative b := by
    rcases (Decimal.toBits_of_sort hsort).2 with rfl | hb
    · cases negative <;> exact ⟨_, rfl, by decide +kernel⟩
    · obtain ⟨hnegative, hmagnitude⟩ := Decimal.recordNumeral_value negative hb.pos.ne'
      have hnear := hmagnitude ▸ Decimal.near_shortest .toEven hb.pos.ne'
      obtain ⟨y, hy, hsort'⟩ := Json.floatOf?_short hb hnear hdigits hleast hmost
      exact ⟨y, hy, hnegative ▸ hsort'⟩
  obtain ⟨y, hy, hsort'⟩ := hread
  rw [PrintsBack, reread?, hn, Option.bind_some, hy, Decimal.sort_inj hsort' hsort]

example : reread? 1.3333333333333335 = some 1.3333333333333337 := by decide +kernel

theorem instantReader_instantJson {i : Instant} (h : StampsBack i) (p : Place) :
    instantReader p (instantJson i) = some i := by
  rw [instantReader, instantJson, Json.ofString, Json.str, Option.bind_some]
  exact h

theorem str_ofString (s : String) (p : Place) : Json.str p (Json.ofString s) = some s := rfl

theorem size_ofNat {n : Nat} (h : n < 0x10000000000000000) (p : Place) :
    Json.size p (Json.ofNat n) = some n := Decimal.Numeral.natural?_ofNat h

theorem word_ofNat (n : UInt32) (p : Place) : Json.word p (Json.ofNat n.toNat) = some n := by
  have h : n.toNat < 0x100000000 := n.toNat_lt
  have hn : Json.natural 0x100000000 p (Json.ofNat n.toNat) = some n.toNat :=
    Decimal.Numeral.natural?_ofNat h
  rw [Json.word, hn, Option.map_some, UInt32.ofNat_toNat]

/-! Members. -/

/-- The members of a record are all known if their names are, and are different. -/
theorem knownMembers_record {names : List String} {members : List (String × Json)}
    (hnames : ∀ m ∈ members, names.contains m.1 = true) (hdistinct : (members.map Prod.fst).Nodup) :
    knownMembers names (members.map fun m => (some m.1, m.2)) = some members := by
  induction members with
  | nil => rfl
  | cons m members ih =>
      obtain ⟨hm, hrest⟩ := List.nodup_cons.1 hdistinct
      have hlookup : members.lookup m.1 = none := by
        rw [List.lookup_eq_none_iff]
        intro q hq
        rw [bne_iff_ne]
        intro heq
        exact hm (heq ▸ List.mem_map_of_mem hq)
      have hih := ih (fun q hq => hnames q (List.mem_cons_of_mem m hq)) hrest
      simp only [List.map_cons, knownMembers, hih, Option.bind_eq_bind, Option.bind_some,
        hnames m List.mem_cons_self, if_true, hlookup, Option.isSome_none, Bool.false_eq_true,
        if_false]

theorem fields_record {names : List String} {members : List (String × Json)}
    (hnames : members.map Prod.fst = names) (hdistinct : names.Nodup) :
    Json.fields names .top (.record members) = some ⟨{ depth := 126 }, members⟩ := by
  have hknown : knownMembers names (members.map fun m => (some m.1, m.2)) = some members := by
    refine knownMembers_record (fun m hm => ?_) (hnames ▸ hdistinct)
    rw [List.contains_iff_mem, ← hnames]
    exact List.mem_map_of_mem hm
  simp only [Json.fields, Json.record, hknown]
  rfl

theorem required_eq {α : Type} {f : Fields} {name : String} {v : Json}
    (h : f.given.lookup name = some v) (item : Reader α) :
    f.required name item = item f.place v := by
  rw [Fields.required, h, Option.bind_some]

theorem withDefault_eq {α : Type} {f : Fields} {name : String} {v : Json}
    (h : f.given.lookup name = some v) (item : Reader α) (default : α) :
    f.withDefault name item default = item f.place v := by
  rw [Fields.withDefault, h]

theorem decode_encode {α : Type} {reader : Reader α} {v : Json} {x : α} (hv : Printable v)
    (hx : reader .top v = some x) : decode reader (encode v) = .ok x := by
  rw [decode, encode, Json.ofBytes?_render hv, Option.bind_some, hx]

/-! Records. -/

/-- The ids and counts have 64 bits, and the instant is read back from its text. -/
structure HistoryRecord.Readable (r : HistoryRecord) : Prop where
  id : r.id < 0x10000000000000000
  joinCount : r.joinCount < 0x10000000000000000
  timestamp : StampsBack r.timestamp

def HistoryRecord.IsFinite (r : HistoryRecord) : Prop :=
  r.milliseconds.isFinite = true ∧ r.totalDiff.isFinite = true

instance (r : HistoryRecord) : Decidable r.IsFinite := inferInstanceAs (Decidable (_ ∧ _))

/-- The numbers of the execution are read back from their texts. -/
def HistoryRecord.PrintsBack (r : HistoryRecord) : Prop :=
  Store.PrintsBack r.milliseconds ∧ Store.PrintsBack r.totalDiff

instance (r : HistoryRecord) : Decidable r.PrintsBack := inferInstanceAs (Decidable (_ ∧ _))

/-- The execution with the numbers that are read for its own. -/
def HistoryRecord.reread (r : HistoryRecord) : HistoryRecord :=
  { r with
    milliseconds := (reread? r.milliseconds).getD r.milliseconds
    totalDiff := (reread? r.totalDiff).getD r.totalDiff }

theorem HistoryRecord.PrintsBack.isFinite {r : HistoryRecord} (h : r.PrintsBack) : r.IsFinite :=
  ⟨Store.PrintsBack.isFinite h.1, Store.PrintsBack.isFinite h.2⟩

theorem HistoryRecord.PrintsBack.reread {r : HistoryRecord} (h : r.PrintsBack) : r.reread = r := by
  obtain ⟨hmilliseconds, hdiff⟩ := h
  rw [Store.PrintsBack] at hmilliseconds hdiff
  rw [HistoryRecord.reread, hmilliseconds, hdiff]
  rfl

/-- The numbers of a finite execution are read back if it is read as it was. -/
theorem HistoryRecord.IsFinite.printsBack {r : HistoryRecord} (h : r.IsFinite)
    (hread : r.reread = r) : r.PrintsBack := by
  have hself : ∀ x : Float, x.isFinite = true → (reread? x).getD x = x → Store.PrintsBack x := by
    intro x hx heq
    obtain ⟨y, hy⟩ := Option.isSome_iff_exists.1 ((isSome_reread? x).trans hx)
    rw [hy, Option.getD_some] at heq
    rw [Store.PrintsBack, hy, heq]
  exact ⟨hself _ h.1 (congrArg HistoryRecord.milliseconds hread),
    hself _ h.2 (congrArg HistoryRecord.totalDiff hread)⟩

/-- An execution whose numbers and instant are read back, with a join count of 64 bits. -/
structure HistoryRecord.Storable (r : HistoryRecord) : Prop where
  milliseconds : Store.PrintsBack r.milliseconds
  totalDiff : Store.PrintsBack r.totalDiff
  joinCount : r.joinCount < 0x10000000000000000
  timestamp : StampsBack r.timestamp

theorem HistoryRecord.printable_json (r : HistoryRecord) : Printable r.json := by
  simp only [json, Json.record, List.map_cons, List.map_nil, Printable, PrintableMembers,
    Json.ofNat, Json.ofString, instantJson, Decimal.Numeral.wellFormed_ofNat, printable_floatJson,
    and_self]

/-- Whether an execution is read is up to its numbers and its instant. -/
theorem HistoryRecord.reader_json {r : HistoryRecord} (h : r.Readable) :
    reader .top r.json = do
      let milliseconds ← reread? r.milliseconds
      let totalDiff ← reread? r.totalDiff
      return { r with milliseconds, totalDiff } := by
  have hfields : ∃ f, Json.fields fieldNames .top r.json = some f ∧
      f.given.lookup "id" = some (.ofNat r.id) ∧
      f.given.lookup "norm_query_hash" = some (.ofString r.queryKey) ∧
      f.given.lookup "query_id" = some (.ofNat r.queryId.toNat) ∧
      f.given.lookup "plan_id" = some (.ofNat r.planId.toNat) ∧
      f.given.lookup "execution_time_ms" = some (floatJson r.milliseconds) ∧
      f.given.lookup "rows_hint" = some (.ofString r.rows) ∧
      f.given.lookup "scan_hint" = some (.ofString r.scan) ∧
      f.given.lookup "join_hint" = some (.ofString r.join) ∧
      f.given.lookup "lead_hint" = some (.ofString r.leading) ∧
      f.given.lookup "diff_of_joins" = some (floatJson r.totalDiff) ∧
      f.given.lookup "join_count" = some (.ofNat r.joinCount) ∧
      f.given.lookup "application_name" = some (.ofString r.client) ∧
      f.given.lookup "timestamp" = some (instantJson r.timestamp) := by
    refine ⟨_, fields_record rfl (by decide), ?_⟩
    simp only [List.lookup_cons, BEq.rfl, String.reduceBEq, and_self]
  obtain ⟨f, hf, h1, h2, h3, h4, h5, h6, h7, h8, h9, h10, h11, h12, h13⟩ := hfields
  -- rewritten and not simplified, since the congruence of each bind doubles the work
  rw [reader, hf, Option.bind_eq_bind, Option.bind_some, withDefault_eq h1, required_eq h2,
    required_eq h3, required_eq h4, required_eq h5, required_eq h6, required_eq h7,
    required_eq h8, required_eq h9, required_eq h10, required_eq h11, required_eq h12,
    required_eq h13, size_ofNat h.id, word_ofNat, word_ofNat, size_ofNat h.joinCount,
    float_floatJson, float_floatJson, instantReader_instantJson h.timestamp]
  generalize reread? r.milliseconds = milliseconds?
  generalize reread? r.totalDiff = totalDiff?
  rfl

/-- An execution is read with the numbers that are read for its own, if it is finite. -/
theorem HistoryRecord.decode_encode_eq {r : HistoryRecord} (h : r.Readable) :
    decode reader (encode r.json) =
      if r.IsFinite then .ok r.reread else .error (unreadable (encode r.json)) := by
  have hread := reader_json h
  have hmilliseconds := isSome_reread? r.milliseconds
  have hdiff := isSome_reread? r.totalDiff
  split
  · rename_i hfinite
    rw [hfinite.1, Option.isSome_iff_exists] at hmilliseconds
    rw [hfinite.2, Option.isSome_iff_exists] at hdiff
    obtain ⟨x, hx⟩ := hmilliseconds
    obtain ⟨y, hy⟩ := hdiff
    refine Store.decode_encode r.printable_json (hread.trans ?_)
    rw [reread, hx, hy]
    rfl
  · rename_i hinfinite
    have hnone : reader .top r.json = none := by
      rw [hread]
      rw [IsFinite, not_and_or, Bool.not_eq_true, Bool.not_eq_true] at hinfinite
      rcases hinfinite with h | h
      · rw [h, Option.isSome_eq_false_iff, Option.isNone_iff_eq_none] at hmilliseconds
        rw [hmilliseconds]
        rfl
      · rw [h, Option.isSome_eq_false_iff, Option.isNone_iff_eq_none] at hdiff
        rw [hdiff]
        cases reread? r.milliseconds <;> rfl
    rw [decode, encode, Json.ofBytes?_render r.printable_json, Option.bind_some, hnone]

theorem HistoryRecord.decode_encode {r : HistoryRecord} (h : r.Storable)
    (hid : r.id < 0x10000000000000000) : decode reader (encode r.json) = .ok r := by
  have hback : r.PrintsBack := ⟨h.milliseconds, h.totalDiff⟩
  rw [decode_encode_eq ⟨hid, h.joinCount, h.timestamp⟩, if_pos hback.isFinite, hback.reread]

theorem TextRecord.decode_encode (log : TextLog) {r : TextRecord} (h : StampsBack r.timestamp)
    (hid : r.id < 0x10000000000000000) : decode (reader log) (encode (r.json log)) = .ok r := by
  refine Store.decode_encode ?_ ?_
  · simp only [json, Json.record, List.map_cons, List.map_nil, Printable, PrintableMembers,
      Json.ofNat, Json.ofString, instantJson, Decimal.Numeral.wellFormed_ofNat, and_self]
  · have hfields : ∃ f, Json.fields ["id", "norm_query_hash", log.textName, "timestamp"] .top
          (r.json log) = some f ∧
        f.given.lookup "id" = some (.ofNat r.id) ∧
        f.given.lookup "norm_query_hash" = some (.ofString r.queryKey) ∧
        f.given.lookup log.textName = some (.ofString r.text) ∧
        f.given.lookup "timestamp" = some (instantJson r.timestamp) := by
      refine ⟨_, fields_record rfl (by cases log <;> decide), ?_⟩
      cases log <;>
        simp only [List.lookup_cons, TextLog.textName, BEq.rfl, String.reduceBEq, and_self]
    obtain ⟨f, hf, h1, h2, h3, h4⟩ := hfields
    rw [reader, hf]
    simp only [required_eq h1, required_eq h2, required_eq h3, required_eq h4, Option.bind_eq_bind,
      Option.bind_some, Option.pure_def, str_ofString, size_ofNat hid, instantReader_instantJson h]

theorem HintRecord.decode_encode {r : HintRecord} (h : StampsBack r.updated) :
    decode reader (encode r.json) = .ok r := by
  refine Store.decode_encode ?_ ?_
  · simp only [json, Json.record, List.map_cons, List.map_nil, Printable, PrintableMembers,
      Json.ofString, instantJson, and_self]
  · have hfields : ∃ f, Json.fields ["norm_query_string", "application_name", "hints",
          "updated_at"] .top r.json = some f ∧
        f.given.lookup "norm_query_string" = some (.ofString r.normalized) ∧
        f.given.lookup "application_name" = some (.ofString r.client) ∧
        f.given.lookup "hints" = some (.ofString r.hints) ∧
        f.given.lookup "updated_at" = some (instantJson r.updated) := by
      refine ⟨_, fields_record rfl (by decide), ?_⟩
      simp only [List.lookup_cons, BEq.rfl, String.reduceBEq, and_self]
    obtain ⟨f, hf, h1, h2, h3, h4⟩ := hfields
    rw [reader, hf]
    simp only [required_eq h1, required_eq h2, required_eq h3, required_eq h4, Option.bind_eq_bind,
      Option.bind_some, Option.pure_def, str_ofString, instantReader_instantJson h]

end PlanFeedback.Store
