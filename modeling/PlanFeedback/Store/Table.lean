import PlanFeedback.Text.Utf8

/-!
Tables of bytes under keys of bytes, in the order of the keys.
-/
namespace PlanFeedback.Store

open Text (Bytes)

abbrev Row := Bytes × Bytes

/-- Puts a row into its place; a row with the same key is replaced. -/
def insertRow (key value : Bytes) : List Row → List Row
  | [] => [(key, value)]
  | row :: rest =>
    if key < row.1 then (key, value) :: row :: rest
    else if key = row.1 then (key, value) :: rest
    else row :: insertRow key value rest

theorem mem_insertRow {key value : Bytes} {row : Row} {rows : List Row}
    (h : row ∈ insertRow key value rows) : row = (key, value) ∨ row ∈ rows := by
  induction rows with
  | nil => exact Or.inl (List.mem_singleton.1 h)
  | cons head rest ih =>
    unfold insertRow at h
    split at h
    · exact List.mem_cons.1 h
    · split at h
      · rcases List.mem_cons.1 h with e | e
        · exact Or.inl e
        · exact Or.inr (List.mem_cons_of_mem _ e)
      · rcases List.mem_cons.1 h with e | e
        · exact Or.inr (e ▸ List.mem_cons_self)
        · exact (ih e).imp_right (List.mem_cons_of_mem _)

theorem pairwise_insertRow {key value : Bytes} {rows : List Row}
    (h : rows.Pairwise fun a b => a.1 < b.1) :
    (insertRow key value rows).Pairwise fun a b => a.1 < b.1 := by
  induction rows with
  | nil => exact List.pairwise_singleton _ _
  | cons head rest ih =>
    obtain ⟨least, increasing⟩ := List.pairwise_cons.1 h
    unfold insertRow
    split
    · rename_i hlt
      refine List.pairwise_cons.2 ⟨?_, h⟩
      intro row hrow
      rcases List.mem_cons.1 hrow with rfl | hrow
      · exact hlt
      · exact List.lt_trans hlt (least row hrow)
    · split
      · rename_i heq
        refine List.pairwise_cons.2 ⟨?_, increasing⟩
        intro row hrow
        exact heq ▸ least row hrow
      · rename_i hge hne
        refine List.pairwise_cons.2 ⟨?_, ih increasing⟩
        intro row hrow
        rcases mem_insertRow hrow with rfl | hrow
        · exact Std.lt_of_le_of_ne (List.not_lt.1 hge) (Ne.symm hne)
        · exact least row hrow

/-- A table: rows with strictly increasing keys. -/
structure Table where
  rows : List Row
  increasing : rows.Pairwise fun a b => a.1 < b.1
  deriving DecidableEq

namespace Table

def empty : Table := ⟨[], List.Pairwise.nil⟩

def get? (t : Table) (key : Bytes) : Option Bytes := t.rows.lookup key

def insert (t : Table) (key value : Bytes) : Table :=
  ⟨insertRow key value t.rows, pairwise_insertRow t.increasing⟩

def values (t : Table) : List Bytes := t.rows.map Prod.snd

/-- The values whose keys lie between two keys, ends included. -/
def valuesBetween (t : Table) (least greatest : Bytes) : List Bytes :=
  (t.rows.filter fun row => least ≤ row.1 ∧ row.1 ≤ greatest).map Prod.snd

end Table

end PlanFeedback.Store
