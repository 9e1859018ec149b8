import Mathlib.Data.List.Sort
import PlanFeedback.Proofs.Key
import PlanFeedback.Store.Durable

/-!
What a write to a table does to what is read from it, and what a write to a repository leaves as it
was.
-/
namespace PlanFeedback.Store

open Text (Bytes utf8_injective)

theorem lookup_row (row : Row) (rows : List Row) (key : Bytes) :
    (row :: rows).lookup key = if key = row.1 then some row.2 else rows.lookup key := by
  rw [List.lookup_cons]
  by_cases h : key = row.1
  · rw [beq_iff_eq.2 h, if_pos h]
  · rw [beq_eq_false_iff_ne.2 h, if_neg h]

theorem lookup_insertRow (key value key' : Bytes) (rows : List Row) :
    (insertRow key value rows).lookup key' =
      if key' = key then some value else rows.lookup key' := by
  induction rows with
  | nil => exact lookup_row (key, value) [] key'
  | cons row rows ih =>
      rw [insertRow]
      split
      · exact lookup_row (key, value) (row :: rows) key'
      · split
        · rename_i _ heq
          rw [lookup_row, lookup_row, heq]
          by_cases h : key' = row.1
          · rw [if_pos h, if_pos h]
          · rw [if_neg h, if_neg h, if_neg h]
        · rename_i _ hne
          rw [lookup_row, lookup_row, ih]
          by_cases h : key' = row.1
          · rw [if_pos h, if_neg (h ▸ Ne.symm hne), if_pos h]
          · rw [if_neg h, if_neg h]

theorem mem_insertRow_fresh {key value : Bytes} {rows : List Row} (h : ∀ x ∈ rows, x.1 ≠ key)
    (row : Row) : row ∈ insertRow key value rows ↔ row ∈ rows ∨ row = (key, value) := by
  induction rows with
  | nil => simp [insertRow]
  | cons head rows ih =>
      have hhead : key ≠ head.1 := (h head List.mem_cons_self).symm
      rw [insertRow, if_neg hhead]
      split
      · rw [List.mem_cons, or_comm]
      · rw [List.mem_cons, ih fun x hx => h x (List.mem_cons_of_mem head hx), List.mem_cons,
          or_assoc]

/-- A row under a key that is greater than all others comes last. -/
theorem insertRow_greatest {key value : Bytes} {rows : List Row} (h : ∀ x ∈ rows, x.1 < key) :
    insertRow key value rows = rows ++ [(key, value)] := by
  induction rows with
  | nil => rfl
  | cons row rows ih =>
      have hlt : row.1 < key := h row List.mem_cons_self
      have hne : key ≠ row.1 := fun heq => List.lt_irrefl key (heq ▸ hlt)
      rw [insertRow, if_neg (List.lt_asymm hlt), if_neg hne,
        ih fun x hx => h x (List.mem_cons_of_mem row hx), List.cons_append]

namespace Table

theorem get?_insert (t : Table) (key value key' : Bytes) :
    (t.insert key value).get? key' = if key' = key then some value else t.get? key' :=
  lookup_insertRow key value key' t.rows

/-- The rows of a table are known from their set, since they lie in order. -/
theorem filter_rows {t : Table} {p : Row → Bool} {rows : List Row}
    (hrows : rows.Pairwise fun a b => a.1 < b.1) (h : ∀ x, x ∈ rows ↔ x ∈ t.rows ∧ p x = true) :
    t.rows.filter p = rows := by
  have : Std.Irrefl fun a b : Row => a.1 < b.1 := ⟨fun a => List.lt_irrefl a.1⟩
  have : Std.Antisymm fun a b : Row => a.1 < b.1 :=
    ⟨fun a b hab hba => absurd hba (List.lt_asymm hab)⟩
  apply (t.increasing.filter p).eq_of_mem_iff hrows
  intro x
  rw [List.mem_filter, h]

end Table

theorem TableName.text_injective {name name' : TableName} (h : name.text = name'.text) :
    name = name' := by
  cases name <;> cases name' <;> first | rfl | exact absurd h (by decide)

namespace Durable

theorem sequenceKey_inj {log log' : TableName} (h : sequenceKey log = sequenceKey log') :
    log = log' := TableName.text_injective (utf8_injective h)

/-! What a write leaves as it was. -/

theorem tableOrEmpty_put (d : Durable) (name : TableName) (key value : Bytes) (name' : TableName) :
    (d.put name key value).tableOrEmpty name' =
      if name' = name then (d.tableOrEmpty name).insert key value else d.tableOrEmpty name' := by
  simp only [put, set, tableOrEmpty]
  by_cases h : name' = name
  · rw [if_pos h, if_pos h, Option.getD_some]
  · rw [if_neg h, if_neg h]

def Complete (d : Durable) : Prop := ∀ name, d.table? name = some (d.tableOrEmpty name)

theorem complete_createSchema (d : Durable) : d.createSchema.Complete := fun _ => rfl

theorem Complete.createSchema {d : Durable} (h : d.Complete) : d.createSchema = d :=
  congrArg Durable.mk (funext fun name => (h name).symm)

theorem Complete.put {d : Durable} (h : d.Complete) (name : TableName) (key value : Bytes) :
    (d.put name key value).Complete := by
  intro name'
  rw [tableOrEmpty_put, Durable.put, set]
  by_cases hname : name' = name
  · simp only [if_pos hname]
  · simp only [if_neg hname]
    exact h name'

theorem Complete.read {d : Durable} (h : d.Complete) (name : TableName) :
    d.read name = .ok (d.tableOrEmpty name) := by
  rw [Durable.read, h name]

theorem Complete.ensureSchema {d : Durable} (h : d.Complete) : d.ensureSchema = .ok () := by
  simp only [Durable.ensureSchema, TableName.all, h.read]
  rfl

/-! Counting. -/

def stored (d : Durable) (log : TableName) (id : Nat) (row : Row) : Durable :=
  (d.put .sequences (sequenceKey log) (wordBytes id)).put log row.1 row.2

theorem append_eq {d : Durable} {log : TableName} {n : Nat} (hlast : d.lastId log = .ok n)
    (hn : n + 1 < 0x10000000000000000) (row : Nat → Row) :
    d.append log row = .ok (n + 1, d.stored log (n + 1) (row (n + 1))) := by
  have hmod : (n + 1) % 0x10000000000000000 = n + 1 := Nat.mod_eq_of_lt hn
  simp only [append, hlast, bind, Except.bind, pure, Except.pure, hmod, stored]

theorem tableOrEmpty_stored (d : Durable) {log log' : TableName} (id : Nat) (row : Row)
    (hlog' : log' ≠ .sequences) :
    (d.stored log id row).tableOrEmpty log' =
      if log' = log then (d.tableOrEmpty log').insert row.1 row.2 else d.tableOrEmpty log' := by
  rw [stored, tableOrEmpty_put, tableOrEmpty_put, tableOrEmpty_put, if_neg hlog']
  by_cases h : log' = log
  · subst h
    rw [if_pos rfl, if_pos rfl, if_neg hlog']
  · rw [if_neg h, if_neg h]

theorem lastId_stored (d : Durable) {log : TableName} (log' : TableName) {id : Nat} (row : Row)
    (hlog : log ≠ .sequences) (hid : id < 0x10000000000000000) :
    (d.stored log id row).lastId log' = if log' = log then .ok id else d.lastId log' := by
  rw [lastId, stored, tableOrEmpty_put, if_neg (Ne.symm hlog), tableOrEmpty_put, if_pos rfl,
    Table.get?_insert]
  by_cases h : log' = log
  · rw [if_pos (congrArg sequenceKey h), if_pos h]
    simp only [length_wordBytes, if_true, ofBigEndian_wordBytes hid]
  · rw [if_neg fun hkey => h (sequenceKey_inj hkey), if_neg h, lastId]

theorem Complete.stored {d : Durable} (h : d.Complete) (log : TableName) (id : Nat) (row : Row) :
    (d.stored log id row).Complete := (h.put .sequences _ _).put log row.1 row.2

end Durable

end PlanFeedback.Store
