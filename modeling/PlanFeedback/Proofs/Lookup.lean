import PlanFeedback.Plan.Walk
import PlanFeedback.Proofs.Shape

/-!
Looking up relations one after the other. The first that the range table lacks is the error, so that
the order of the look-ups tells both whether there is a result and which error there is otherwise.
-/
namespace PlanFeedback

namespace Plan

theorem exists_itemAt {α : Type} {items : List α} {index : Nat}
    (h : 0 < index ∧ index ≤ items.length) : ∃ item, itemAt items index = .ok item := by
  obtain ⟨hpos, hle⟩ := h
  cases index with
  | zero => omega
  | succ i => exact ⟨_, by rw [itemAt, List.getElem?_eq_getElem hle]⟩

def isBad (length relation : Nat) : Bool := decide (relation = 0 ∨ length < relation)

theorem isBad_iff {length relation : Nat} :
    isBad length relation = true ↔ ¬ (0 < relation ∧ relation ≤ length) := by
  rw [isBad, decide_eq_true_eq]
  omega

/-- The nodes of a plan along all edges, a node before its children and these in the order of the
edges. -/
def nodes (p : Plan) : List Plan := p :: (p.preorder .all).map Prod.snd

theorem preorder_eq (filter : EdgeFilter) (p : Plan) :
    p.preorder filter = (p.edges.filter fun b => filter.follows b.1).flatMap fun b =>
      b :: b.2.preorder filter := by
  have hopen : p.preorder filter = (filter.branches
      (p.edges.map fun b => ⟨b.1, b.2, b.2.preorder filter⟩)).flatMap
        fun b => (b.edge, b.child) :: b.value := fold_eq _ p
  rw [hopen, EdgeFilter.branches, List.filter_map, List.flatMap_map]
  rfl

theorem nodes_eq (p : Plan) : p.nodes = p :: p.edges.flatMap fun b => b.2.nodes := by
  have hall : p.edges.filter (fun b => EdgeFilter.all.follows b.1) = p.edges :=
    List.filter_eq_self.2 fun _ _ => rfl
  rw [nodes, preorder_eq, hall, List.map_flatMap]
  rfl

/-- The relations that a document of the shape shows for a node of this kind. -/
def Kind.shown : Kind → List Nat
  | .scan _ relation => [relation]
  | .modifyTable target _ => [target]
  | .foreignScan relations => relations
  | .customScan relations => relations
  | .bitmapIndexScan _ | .join _ | .composite _ | .gather _ | .other _ => []

def shown (p : Plan) : List Nat := p.nodes.flatMap fun q => q.kind.shown

theorem shown_eq (p : Plan) : p.shown = p.kind.shown ++ p.edges.flatMap fun b => b.2.shown := by
  rw [shown, nodes_eq, List.flatMap_cons, List.flatMap_assoc]
  rfl

end Plan

namespace Advice

open Plan (BadIndex Edge IndexSet Kind Names RangeTable isBad isBad_iff)

/-- The relations are looked up in the order of the list: the first that is bad is the error, and if
there is none the result is a value. -/
def LooksUp {α : Type} (length : Nat) (relations : List Nat) (x : Except BadIndex α) : Prop :=
  match relations.find? (isBad length) with
  | some relation => x = .error ⟨relation, length⟩
  | none => ∃ a, x = .ok a

namespace LooksUp

variable {α β : Type} {length : Nat} {relations more : List Nat} {x : Except BadIndex α}

theorem pure (length : Nat) (a : α) : LooksUp length [] (.ok a) := ⟨a, rfl⟩

/-- A result is an error for a relation or a value, and the list tells which. -/
theorem cases (h : LooksUp length relations x) :
    (∃ relation, relations.find? (isBad length) = some relation ∧ x = .error ⟨relation, length⟩) ∨
      relations.find? (isBad length) = none ∧ ∃ a, x = .ok a := by
  rw [LooksUp] at h
  split at h
  · exact .inl ⟨_, ‹_›, h⟩
  · exact .inr ⟨‹_›, h⟩

theorem bind {f : α → Except BadIndex β} (hx : LooksUp length relations x)
    (hf : ∀ a, LooksUp length more (f a)) : LooksUp length (relations ++ more) (x >>= f) := by
  rw [LooksUp, List.find?_append]
  rcases hx.cases with ⟨relation, hfind, rfl⟩ | ⟨hfind, a, rfl⟩
  · rw [hfind]
    rfl
  · rw [hfind]
    exact hf a

theorem map {f : α → β} (hx : LooksUp length relations x) : LooksUp length relations (x.map f) := by
  rw [LooksUp]
  rcases hx.cases with ⟨relation, hfind, rfl⟩ | ⟨hfind, a, rfl⟩
  · rw [hfind]
    rfl
  · rw [hfind]
    exact ⟨f a, rfl⟩

theorem mapM {γ : Type} {f : γ → Except BadIndex α} {g : γ → List Nat} {items : List γ}
    (h : ∀ a ∈ items, LooksUp length (g a) (f a)) :
    LooksUp length (items.flatMap g) (items.mapM f) := by
  induction items with
  | nil => exact .pure length []
  | cons a items ih =>
      have hrest := ih fun b hb => h b (List.mem_cons_of_mem a hb)
      rw [List.mapM_cons, List.flatMap_cons]
      exact (h a List.mem_cons_self).bind fun _ => hrest.map

theorem exists_ok_iff (h : LooksUp length relations x) :
    (∃ a, x = .ok a) ↔ ∀ relation ∈ relations, 0 < relation ∧ relation ≤ length := by
  rcases h.cases with ⟨relation, hfind, rfl⟩ | ⟨hfind, a, rfl⟩
  · have hbad := isBad_iff.1 (List.find?_some hfind)
    simp only [reduceCtorEq, exists_false, false_iff]
    exact fun hall => hbad (hall relation (List.mem_of_find?_eq_some hfind))
  · simp only [List.find?_eq_none, isBad_iff, not_not] at hfind
    exact iff_of_true ⟨a, rfl⟩ hfind

theorem exists_error_iff (h : LooksUp length relations x) :
    (∃ bad, x = .error bad) ↔ ∃ relation ∈ relations, ¬ (0 < relation ∧ relation ≤ length) := by
  have hok := not_congr h.exists_ok_iff
  simp only [not_forall, exists_prop] at hok
  rw [← hok]
  cases x <;> simp

theorem error_iff (h : LooksUp length relations x) {bad : BadIndex} :
    x = .error bad ↔
      bad.length = length ∧ relations.find? (isBad length) = some bad.index := by
  rcases h.cases with ⟨relation, hfind, rfl⟩ | ⟨hfind, a, rfl⟩
  · obtain ⟨index, n⟩ := bad
    rw [hfind, Except.error.injEq, BadIndex.mk.injEq, Option.some.injEq, and_comm, eq_comm (a := n)]
  · rw [hfind]
    simp

end LooksUp

theorem looksUp_itemAt {α : Type} (items : List α) (index : Nat) :
    LooksUp items.length [index] (Plan.itemAt items index) := by
  rw [LooksUp, List.find?_singleton]
  cases hbad : isBad items.length index with
  | false =>
      have hgood : 0 < index ∧ index ≤ items.length := by
        rw [← not_not (a := 0 < index ∧ _), ← isBad_iff, hbad]
        exact Bool.false_ne_true
      exact Plan.exists_itemAt hgood
  | true =>
      have hbad := isBad_iff.1 hbad
      cases index with
      | zero => rfl
      | succ i =>
          have hnone : items[i]? = none := List.getElem?_eq_none (by omega)
          change Plan.itemAt items (i + 1) = _
          rw [Plan.itemAt, hnone]

/-! Names. -/

theorem looksUp_assign (table : RangeTable) (used : IndexSet) :
    LooksUp table.length used.toList (Names.assign table used) := by
  have hbad : isBad table.length = fun i => decide (i = 0 ∨ table.length < i) := rfl
  rw [LooksUp, Names.assign, hbad]
  cases used.toList.find? fun i => decide (i = 0 ∨ table.length < i) with
  | some relation => rfl
  | none => exact ⟨_, rfl⟩

/-! The shape. -/

section Shape

variable (table : RangeTable)

theorem looksUp_get (relation : Nat) : LooksUp table.length [relation] (table.get relation) :=
  looksUp_itemAt table relation

theorem looksUp_relationTarget (relation : Nat) :
    LooksUp table.length [relation] (relationTarget table relation) :=
  (looksUp_get table relation).map

theorem looksUp_foreignTarget (relations : List Nat) :
    LooksUp table.length relations (foreignTarget table relations) := by
  rw [foreignTarget.eq_def]
  split
  · exact looksUp_relationTarget table _
  · have hmap : LooksUp table.length (relations.flatMap fun relation => [relation])
        (relations.mapM fun r => (table.get r).map Plan.RangeEntry.reference) :=
      .mapM fun relation _ => (looksUp_get table relation).map
    rw [List.flatMap_singleton'] at hmap
    exact hmap.map

theorem looksUp_target (kind : Kind) : LooksUp table.length kind.shown (target table kind) := by
  cases kind with
  | scan method relation => exact looksUp_relationTarget table relation
  | modifyTable relation exclusion? => exact looksUp_relationTarget table relation
  | foreignScan relations => exact looksUp_foreignTarget table relations
  | customScan relations => exact looksUp_foreignTarget table relations
  | bitmapIndexScan | join | composite | gather | other => exact .pure _ _

/-- The shape looks up what it shows: a node before its children, and these edge by edge. -/
theorem looksUp_shapeAt (p : Plan) :
    ∀ edge?, LooksUp table.length p.shown (shapeAt table p edge?) := by
  induction p using Plan.induction_edges with
  | step p ih =>
      intro edge?
      rw [shapeAt_eq, Plan.shown_eq]
      refine (looksUp_target table p.kind).bind fun t => ?_
      exact (LooksUp.mapM fun b hb => ih b hb (some b.1)).map

end Shape

end Advice

end PlanFeedback
