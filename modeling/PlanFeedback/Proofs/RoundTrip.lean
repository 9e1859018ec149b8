import Mathlib.Data.Set.Function
import PlanFeedback.Proofs.History

/-!
Records are read back from their bytes, whatever texts stand in them, and the bytes tell records
apart. An execution is read back if its numbers are; only one with a number that is not finite is
lost, and of an instant only what its text does not show.
-/
namespace PlanFeedback.Store

open Json (Reader)
open Time (Instant)

/-- An instant of the calendar is read back unless it has a leap second that does not end a minute. -/
theorem stampsBack_iff {i : Instant} (h : i.Valid) : StampsBack i ↔ i.settled = i := by
  rw [StampsBack, Instant.ofText?_text h, Option.some.injEq]

structure TextRecord.Readable (r : TextRecord) : Prop where
  id : r.id < 0x10000000000000000
  timestamp : StampsBack r.timestamp

/-- An execution is read back exactly if its numbers are. -/
theorem HistoryRecord.decode_encode_iff {r : HistoryRecord} (h : r.Readable) :
    decode reader (encode r.json) = .ok r ↔ r.PrintsBack := by
  rw [decode_encode_eq h]
  constructor
  · intro hread
    split at hread
    · rename_i hfinite
      exact hfinite.printsBack (Except.ok.inj hread)
    · cases hread
  · intro hback
    rw [if_pos hback.isFinite, hback.reread]

/-! Different bytes. -/

theorem ofNat_inj {n m : Nat} (h : Json.ofNat n = Json.ofNat m) : n = m := by
  have hnumeral : Decimal.Numeral.ofNat n = Decimal.Numeral.ofNat m := Json.number.inj h
  have hdigits : Decimal.digitChars n = Decimal.digitChars m :=
    congrArg Decimal.Numeral.whole hnumeral
  rw [← Decimal.digitsValue_digitChars n, hdigits, Decimal.digitsValue_digitChars]

theorem ofString_inj {s t : String} (h : Json.ofString s = Json.ofString t) : s = t :=
  Option.some.inj (Json.string.inj h)

theorem instantJson_inj {i j : Instant} (hi : StampsBack i) (hj : StampsBack j)
    (h : instantJson i = instantJson j) : i = j := by
  rw [StampsBack, ofString_inj h, hj] at hi
  exact (Option.some.inj hi).symm

/-- The texts of finite numbers tell them apart, since the number nearest to a text is known. -/
theorem floatJson_inj {x y : Float} (hx : x.isFinite = true) (hy : y.isFinite = true)
    (h : floatJson x = floatJson y) : x = y := by
  have hprinted : ∀ z : Float, z.isFinite = true → ∃ n, Decimal.recordNumeral? z = some n := by
    intro z hz
    obtain ⟨negative, b, hsort⟩ := Decimal.isFinite_iff.1 hz
    exact ⟨_, Decimal.recordNumeral?_eq_some.2 ⟨negative, b, hsort, rfl⟩⟩
  obtain ⟨n, hn⟩ := hprinted x hx
  obtain ⟨m, hm⟩ := hprinted y hy
  rw [floatJson, floatJson, hn, hm] at h
  rw [← Decimal.toFloat_of_recordNumeral? hn, Json.number.inj h,
    Decimal.toFloat_of_recordNumeral? hm]

theorem HistoryRecord.json_inj {r s : HistoryRecord} (hr : r.Readable ∧ r.IsFinite)
    (hs : s.Readable ∧ s.IsFinite) (h : r.json = s.json) : r = s := by
  obtain ⟨hreadable, hmilliseconds, hdiff⟩ := hr
  obtain ⟨hreadable', hmilliseconds', hdiff'⟩ := hs
  simp only [json, Json.record, List.map_cons, List.map_nil, Json.object.injEq, List.cons.injEq,
    Prod.mk.injEq, true_and, and_true] at h
  obtain ⟨h1, h2, h3, h4, h5, h6, h7, h8, h9, h10, h11, h12, h13⟩ := h
  have hqueryId := UInt32.toNat_inj.1 (ofNat_inj h3)
  have hplanId := UInt32.toNat_inj.1 (ofNat_inj h4)
  have hstamp := instantJson_inj hreadable.timestamp hreadable'.timestamp h13
  cases r
  cases s
  simp only [HistoryRecord.mk.injEq]
  exact ⟨ofNat_inj h1, ofString_inj h2, hqueryId, hplanId,
    floatJson_inj hmilliseconds hmilliseconds' h5, ofString_inj h6, ofString_inj h7,
    ofString_inj h8, ofString_inj h9, floatJson_inj hdiff hdiff' h10, ofNat_inj h11,
    ofString_inj h12, hstamp⟩

/-- Executions have different bytes, whether or not their numbers are read back. -/
theorem HistoryRecord.encode_injOn :
    Set.InjOn (fun r : HistoryRecord => encode r.json) {r | r.Readable ∧ r.IsFinite} := by
  intro r hr s hs heq
  have hread : Json.ofBytes? (encode r.json) = Json.ofBytes? (encode s.json) :=
    congrArg Json.ofBytes? heq
  rw [encode, encode, Json.ofBytes?_render r.printable_json,
    Json.ofBytes?_render s.printable_json] at hread
  exact json_inj hr hs (Option.some.inj hread)

/-- Records that are read back have different bytes. -/
theorem encode_injOn {α : Type} {json : α → Json} {reader : Reader α} {records : Set α}
    (h : ∀ r ∈ records, decode reader (encode (json r)) = .ok r) :
    Set.InjOn (fun r => encode (json r)) records := by
  intro r hr s hs heq
  have hread : decode reader (encode (json r)) = decode reader (encode (json s)) :=
    congrArg (decode reader) heq
  rw [h r hr, h s hs] at hread
  exact Except.ok.inj hread

/-- Records of all sorts are read back from their bytes, executions just where their numbers are read
back from the texts, and else with other finite numbers. The bytes of a sort tell its records apart. -/
theorem records_read_back :
    ((∀ r : HistoryRecord, r.Readable →
        (decode HistoryRecord.reader (encode r.json) = .ok r ↔ r.PrintsBack) ∧
        (r.IsFinite → decode HistoryRecord.reader (encode r.json) = .ok r.reread)) ∧
      Set.InjOn (fun r : HistoryRecord => encode r.json) {r | r.Readable ∧ r.IsFinite}) ∧
    (∀ log : TextLog,
      (∀ r : TextRecord, r.Readable →
        decode (TextRecord.reader log) (encode (r.json log)) = .ok r) ∧
      Set.InjOn (fun r : TextRecord => encode (r.json log)) {r | r.Readable}) ∧
    ((∀ r : HintRecord, StampsBack r.updated →
        decode HintRecord.reader (encode r.json) = .ok r) ∧
      Set.InjOn (fun r : HintRecord => encode r.json) {r | StampsBack r.updated}) := by
  refine ⟨⟨?executions, HistoryRecord.encode_injOn⟩, fun log => ⟨?texts, ?textBytes⟩, ?hints,
    ?hintBytes⟩
  case executions =>
    refine fun r h => ⟨HistoryRecord.decode_encode_iff h, fun hfinite => ?_⟩
    rw [HistoryRecord.decode_encode_eq h, if_pos hfinite]
  case texts => exact fun r h => TextRecord.decode_encode log h.timestamp h.id
  case textBytes => exact encode_injOn fun r h => TextRecord.decode_encode log h.timestamp h.id
  case hints => exact fun r h => HintRecord.decode_encode h
  case hintBytes => exact encode_injOn fun r h => HintRecord.decode_encode h

/-- An execution with quotes, a backslash, a control character and a character of four bytes in its
texts, the greatest numbers, and a leap second. -/
def awkward : HistoryRecord where
  id := 0xFFFFFFFFFFFFFFFF
  queryKey := "k/\"\\"
  queryId := 0xFFFFFFFF
  planId := 0
  milliseconds := 0.1
  rows := "Rows(a b #10)\n"
  scan := "\x01"
  join := "HashJoin(\"😀\" b)"
  leading := ""
  totalDiff := -1e300
  joinCount := 0xFFFFFFFFFFFFFFFF
  client := "\\u0041"
  timestamp := ⟨20000, 86399, 1000000007⟩

theorem records_read_back_awkward :
    awkward.Readable ∧ awkward.PrintsBack ∧
      decode HistoryRecord.reader (encode awkward.json) = .ok awkward := by
  have hvalid : awkward.timestamp.Valid := ⟨by decide, by decide, by decide⟩
  have hreadable : awkward.Readable :=
    ⟨by decide, by decide, (stampsBack_iff hvalid).2 (by decide)⟩
  have hback : awkward.PrintsBack := by decide +kernel
  exact ⟨hreadable, hback, (records_read_back.1.1 awkward hreadable).1.2 hback⟩

end PlanFeedback.Store
