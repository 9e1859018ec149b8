import PlanFeedback.Proofs.RecordCodec
import PlanFeedback.Proofs.Table

/-!
The tables of numbered records: the executions and the two logs of query texts. Whichever it is, the
records that were appended are listed again in the order of their ids.
-/
namespace PlanFeedback.Store

open Json (Reader)

/-- A table of numbered records. For a storable record one with the same id and key is read from its
row, and storable records have different keys if they have different ids. -/
structure RecordLog (α : Type) where
  table : TableName
  id : α → Nat
  row : α → Row
  reader : Reader α
  reread : α → α
  Storable : α → Prop
  isLog : table ≠ .sequences
  decode_row (r : α) : Storable r → id r < 0x10000000000000000 →
    decode reader (row r).2 = .ok (reread r)
  id_reread (r : α) : id (reread r) = id r
  key_reread (r : α) : (row (reread r)).1 = (row r).1
  key_inj {r s : α} : Storable r → Storable s → id r < 0x10000000000000000 →
    id s < 0x10000000000000000 → (row r).1 = (row s).1 → id r = id s

theorem TableName.history_ne_sequences : TableName.history ≠ .sequences := by decide

def executionLog : RecordLog HistoryRecord where
  table := .history
  id := HistoryRecord.id
  row r := (historyKey r.id, encode r.json)
  reader := HistoryRecord.reader
  reread r := r
  Storable := HistoryRecord.Storable
  isLog := TableName.history_ne_sequences
  decode_row r h hid := by
    simp only
    exact HistoryRecord.decode_encode h hid
  id_reread _ := rfl
  key_reread _ := rfl
  key_inj _ _ hr hs h := wordBytes_inj hr hs h

/-- A text whose key has no slash in it, with an instant that is read back. -/
structure TextRecord.Storable (r : TextRecord) : Prop where
  queryKey : '/' ∉ r.queryKey.toList
  timestamp : StampsBack r.timestamp

def textLog (log : TextLog) : RecordLog TextRecord where
  table := log.table
  id := TextRecord.id
  row r := (textKey r.queryKey r.id, encode (r.json log))
  reader := TextRecord.reader log
  reread r := r
  Storable := TextRecord.Storable
  isLog := by cases log <;> decide
  decode_row r h hid := by
    simp only
    exact TextRecord.decode_encode log h.timestamp hid
  id_reread _ := rfl
  key_reread _ := rfl
  key_inj _ _ hr hs h := (textKey_inj hr hs h).2

variable {α : Type}

theorem mapM_decode {reader : Reader α} {value : α → Text.Bytes} {reread : α → α}
    {records : List α} (h : ∀ r ∈ records, decode reader (value r) = .ok (reread r)) :
    (records.map value).mapM (decode reader) = .ok (records.map reread) := by
  induction records with
  | nil => rfl
  | cons r records ih =>
      rw [List.map_cons, List.mapM_cons, h r List.mem_cons_self,
        ih fun s hs => h s (List.mem_cons_of_mem r hs)]
      rfl

/-- The repository holds just these records in a log, and has counted them. -/
structure RecordLog.Holds (log : RecordLog α) (d : Durable) (records : List α) : Prop where
  rows : ∀ x, x ∈ (d.tableOrEmpty log.table).rows ↔ x ∈ records.map log.row
  ids : records.map log.id = List.range' 1 records.length
  storable : ∀ r ∈ records, log.Storable r
  fits : records.length < 0x10000000000000000
  counted : d.lastId log.table = .ok records.length

namespace RecordLog.Holds

variable {log : RecordLog α} {d d' : Durable} {records : List α}

theorem nil (log : RecordLog α) (hempty : ∀ name, d.tableOrEmpty name = .empty) :
    log.Holds d [] where
  rows x := by
    rw [hempty]
    exact Iff.rfl
  ids := rfl
  storable _ h := nomatch h
  fits := by simp only [List.length_nil]; decide
  counted := by
    rw [Durable.lastId, hempty]
    rfl

theorem congr (h : log.Holds d records)
    (htable : d'.tableOrEmpty log.table = d.tableOrEmpty log.table)
    (hcount : d'.lastId log.table = d.lastId log.table) : log.Holds d' records where
  rows := htable ▸ h.rows
  ids := h.ids
  storable := h.storable
  fits := h.fits
  counted := hcount.trans h.counted

theorem stored (h : log.Holds d records) {other : TableName} (hne : log.table ≠ other)
    (hother : other ≠ .sequences) {id : Nat} (hid : id < 0x10000000000000000) (row : Row) :
    log.Holds (d.stored other id row) records :=
  h.congr ((Durable.tableOrEmpty_stored d id row log.isLog).trans (if_neg hne))
    ((Durable.lastId_stored d log.table row hother hid).trans (if_neg hne))

theorem put_hints (h : log.Holds d records) (hne : log.table ≠ .hints) (key value : Text.Bytes) :
    log.Holds (d.put .hints key value) records :=
  h.congr ((Durable.tableOrEmpty_put d _ key value _).trans (if_neg hne)) rfl

theorem id_le (h : log.Holds d records) {r : α} (hr : r ∈ records) :
    log.id r ≤ records.length := by
  have hmem : log.id r ∈ List.range' 1 records.length := h.ids ▸ List.mem_map_of_mem hr
  have := List.mem_range'_1.1 hmem
  omega

theorem id_fits (h : log.Holds d records) {r : α} (hr : r ∈ records) :
    log.id r < 0x10000000000000000 := Nat.lt_of_le_of_lt (h.id_le hr) h.fits

theorem pairwise_id (h : log.Holds d records) :
    records.Pairwise fun r s => log.id r < log.id s := by
  have hids : (records.map log.id).Pairwise (· < ·) := h.ids ▸ List.pairwise_lt_range'
  exact List.pairwise_map.1 hids

theorem fresh (h : log.Holds d records) {r : α} (hr : log.Storable r)
    (hid : log.id r = records.length + 1) (hfits : records.length + 1 < 0x10000000000000000) :
    ∀ x ∈ (d.tableOrEmpty log.table).rows, x.1 ≠ (log.row r).1 := by
  intro x hx hkey
  obtain ⟨s, hs, rfl⟩ := List.mem_map.1 ((h.rows x).1 hx)
  have heq := log.key_inj (h.storable s hs) hr (h.id_fits hs) (hid ▸ hfits) hkey
  have hle := h.id_le hs
  omega

/-- The next record goes into a row of its own. -/
theorem append (h : log.Holds d records) {r : α} (hr : log.Storable r)
    (hid : log.id r = records.length + 1) (hfits : records.length + 1 < 0x10000000000000000) :
    log.Holds (d.stored log.table (records.length + 1) (log.row r)) (records ++ [r]) where
  rows := by
    intro x
    rw [Durable.tableOrEmpty_stored d _ _ log.isLog, if_pos rfl, Table.insert,
      mem_insertRow_fresh (h.fresh hr hid hfits), h.rows, List.map_append, List.mem_append,
      List.map_singleton, List.mem_singleton]
  ids := by
    rw [List.map_append, h.ids, List.length_append, List.length_singleton, List.range'_1_concat,
      List.map_singleton, hid, Nat.add_comm]
  storable := by
    intro s hs
    rcases List.mem_append.1 hs with hs | hs
    · exact h.storable s hs
    · rwa [List.mem_singleton.1 hs]
  fits := by rwa [List.length_append, List.length_singleton]
  counted := by
    rw [Durable.lastId_stored d _ _ log.isLog hfits, if_pos rfl, List.length_append,
      List.length_singleton]

/-- A choice among the rows that is a choice among the records gives what is read for these records
in their order, if their keys lie in the order of their ids. -/
theorem decode_filter (h : log.Holds d records) (p : Row → Bool) (q : α → Bool)
    (hpq : ∀ r ∈ records, p (log.row r) = q r)
    (hkeys : ∀ r ∈ records, ∀ s ∈ records, q r = true → q s = true → log.id r < log.id s →
      (log.row r).1 < (log.row s).1) :
    (((d.tableOrEmpty log.table).rows.filter p).map Prod.snd).mapM (decode log.reader) =
      .ok ((records.filter q).map log.reread) := by
  have hsorted : ((records.filter q).map log.row).Pairwise fun a b => a.1 < b.1 := by
    rw [List.pairwise_map]
    apply (h.pairwise_id.filter q).imp_of_mem
    intro r s hr hs hlt
    obtain ⟨hr, hqr⟩ := List.mem_filter.1 hr
    obtain ⟨hs, hqs⟩ := List.mem_filter.1 hs
    exact hkeys _ hr _ hs hqr hqs hlt
  have hrows : (d.tableOrEmpty log.table).rows.filter p = (records.filter q).map log.row := by
    apply Table.filter_rows hsorted
    intro x
    rw [h.rows, List.mem_map, List.mem_map]
    constructor
    · rintro ⟨r, hr, rfl⟩
      obtain ⟨hr, hq⟩ := List.mem_filter.1 hr
      exact ⟨⟨r, hr, rfl⟩, (hpq r hr).trans hq⟩
    · rintro ⟨⟨r, hr, rfl⟩, hp⟩
      exact ⟨r, List.mem_filter.2 ⟨hr, (hpq r hr).symm.trans hp⟩, rfl⟩
  rw [hrows, List.map_map]
  apply mapM_decode
  intro r hr
  have hmem := (List.mem_filter.1 hr).1
  exact log.decode_row r (h.storable r hmem) (h.id_fits hmem)

end RecordLog.Holds

end PlanFeedback.Store
