import PlanFeedback.Proofs.Request
import PlanFeedback.Proofs.Table
import PlanFeedback.Store.Snapshot

/-!
The file of a repository holds all of it, so that nothing is lost while it is closed.
-/
namespace PlanFeedback.Store

open Text (Bytes)

/-! Rebuilding a table from its rows. -/

theorem Table.ext_rows {t t' : Table} (h : t.rows = t'.rows) : t = t' := by
  cases t
  cases t'
  cases h
  rfl

theorem foldl_insert_rows {t : Table} {rows : List Row}
    (h : (t.rows ++ rows).Pairwise fun a b => a.1 < b.1) :
    (rows.foldl (fun t row => t.insert row.1 row.2) t).rows = t.rows ++ rows := by
  induction rows generalizing t with
  | nil => exact (List.append_nil t.rows).symm
  | cons row rows ih =>
      have hrow : (t.insert row.1 row.2).rows = t.rows ++ [row] := by
        apply insertRow_greatest
        intro x hx
        exact (List.pairwise_append.1 h).2.2 x hx row List.mem_cons_self
      have happend : t.rows ++ row :: rows = (t.insert row.1 row.2).rows ++ rows := by
        rw [hrow, List.append_assoc, List.singleton_append]
      rw [List.foldl_cons, ih (happend ▸ h), happend]

theorem Table.foldl_insert (t : Table) :
    t.rows.foldl (fun t row => t.insert row.1 row.2) .empty = t :=
  Table.ext_rows (foldl_insert_rows t.increasing)

/-- The rows of a table can be counted with 64 bits, and so can the bytes of each row. -/
structure Table.Fits (t : Table) : Prop where
  count : t.rows.length < 0x10000000000000000
  key : ∀ row ∈ t.rows, row.1.length < 0x10000000000000000
  value : ∀ row ∈ t.rows, row.2.length < 0x10000000000000000

instance (t : Table) : Decidable t.Fits :=
  decidable_of_iff
    (t.rows.length < 0x10000000000000000 ∧ ∀ row ∈ t.rows,
      row.1.length < 0x10000000000000000 ∧ row.2.length < 0x10000000000000000)
    ⟨fun h => ⟨h.1, fun row hrow => (h.2 row hrow).1, fun row hrow => (h.2 row hrow).2⟩,
      fun h => ⟨h.count, fun row hrow => ⟨h.key row hrow, h.value row hrow⟩⟩⟩

def Durable.Fits (d : Durable) : Prop := ∀ name t, d.table? name = some t → t.Fits

theorem TableName.mem_all (name : TableName) : name ∈ TableName.all := by
  cases name <;> decide

instance (d : Durable) : Decidable d.Fits :=
  decidable_of_iff (∀ name ∈ TableName.all, ∀ t ∈ d.table? name, t.Fits)
    ⟨fun h name t ht => h name name.mem_all t ht, fun h name _ t ht => h name t ht⟩

namespace Snapshot

theorem number?_wordBytes {n : Nat} (h : n < 0x10000000000000000) (rest : Bytes) :
    number? (wordBytes n ++ rest) = some (n, rest) := by
  have hlen : (wordBytes n).length = 8 := length_wordBytes n
  rw [number?, if_pos (by rw [List.length_append, hlen]; omega), ← hlen, List.take_left,
    List.drop_left, ofBigEndian_wordBytes h]

theorem sized?_sizedText {bytes : Bytes} (h : bytes.length < 0x10000000000000000) (rest : Bytes) :
    sized? (sizedText bytes ++ rest) = some (bytes, rest) := by
  rw [sizedText, List.append_assoc, sized?, number?_wordBytes h, Option.bind_eq_bind,
    Option.bind_some]
  simp only [List.length_append, Nat.le_add_right, if_true, List.take_left, List.drop_left]

theorem rows?_rowText {rows : List Row} (hkey : ∀ row ∈ rows, row.1.length < 0x10000000000000000)
    (hvalue : ∀ row ∈ rows, row.2.length < 0x10000000000000000) (rest : Bytes) :
    rows? rows.length (rows.flatMap rowText ++ rest) = some (rows, rest) := by
  induction rows with
  | nil => rfl
  | cons row rows ih =>
      have hrest := ih (fun r hr => hkey r (List.mem_cons_of_mem row hr))
        fun r hr => hvalue r (List.mem_cons_of_mem row hr)
      have hk := sized?_sizedText (hkey row List.mem_cons_self)
      have hv := sized?_sizedText (hvalue row List.mem_cons_self)
      rw [List.length_cons, rows?, List.flatMap_cons, rowText, List.append_assoc, List.append_assoc,
        hk, Option.bind_eq_bind, Option.bind_some]
      simp only [hv, hrest, Option.bind_eq_bind, Option.bind_some, Option.pure_def]

theorem table?_tableText {table? : Option Table} (h : ∀ t, table? = some t → t.Fits)
    (rest : Bytes) : Snapshot.table? (tableText table? ++ rest) = some (table?, rest) := by
  cases table? with
  | none => rfl
  | some t =>
      obtain ⟨hcount, hkey, hvalue⟩ := h t rfl
      rw [tableText, List.cons_append, List.cons_append, List.append_assoc, Snapshot.table?,
        number?_wordBytes hcount, Option.bind_eq_bind, Option.bind_some]
      simp only [rows?_rowText hkey hvalue, Option.bind_eq_bind, Option.bind_some, Option.pure_def,
        Table.foldl_insert]

def place (d : Durable) (name : TableName) : Option Table → Durable
  | none => d
  | some table => d.set name table

theorem tables?_tableText {d : Durable} (hd : d.Fits) (names : List TableName) (read : Durable) :
    tables? read names (names.flatMap fun name => tableText (d.table? name)) =
      some (names.foldl (fun read name => place read name (d.table? name)) read) := by
  induction names generalizing read with
  | nil => rfl
  | cons name names ih =>
      rw [List.flatMap_cons, tables?, table?_tableText (hd name), Option.bind_eq_bind,
        Option.bind_some, List.foldl_cons, ← ih]
      cases d.table? name <;> rfl

theorem table?_place (read : Durable) (name name' : TableName) (table? : Option Table) :
    (place read name table?).table? name' =
      if name' = name then table?.or (read.table? name') else read.table? name' := by
  cases table? with
  | none => simp only [place, Option.none_or, ite_self]
  | some t => simp only [place, Durable.set, Option.some_or]

theorem table?_foldl_place (d : Durable) (names : List TableName) (read : Durable)
    (name : TableName) :
    (names.foldl (fun read name => place read name (d.table? name)) read).table? name =
      if name ∈ names then (d.table? name).or (read.table? name) else read.table? name := by
  induction names generalizing read with
  | nil => rfl
  | cons head names ih =>
      rw [List.foldl_cons, ih, table?_place]
      by_cases hhead : name = head
      · subst hhead
        by_cases hmem : name ∈ names
        · rw [if_pos hmem, if_pos rfl, if_pos List.mem_cons_self, ← Option.or_assoc, Option.or_self]
        · rw [if_neg hmem, if_pos rfl, if_pos List.mem_cons_self]
      · rw [if_neg hhead]
        simp only [List.mem_cons, hhead, false_or]

theorem foldl_place (d : Durable) :
    TableName.all.foldl (fun read name => place read name (d.table? name)) .blank = d := by
  have htable : (TableName.all.foldl (fun read name => place read name (d.table? name))
      .blank).table? = d.table? := by
    funext name
    rw [table?_foldl_place, if_pos name.mem_all]
    exact Option.or_none
  exact congrArg Durable.mk htable

/-- A repository is read back from its file. -/
theorem decode?_encode {d : Durable} (hd : d.Fits) : decode? (encode d) = some d := by
  have hne : encode d ≠ [] := List.cons_ne_nil _ _
  rw [decode?, if_neg hne, encode, List.take_left, if_pos rfl, List.drop_left,
    tables?_tableText hd, foldl_place]

end Snapshot

end PlanFeedback.Store
