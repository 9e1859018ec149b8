import PlanFeedback.Proofs.Directives
import PlanFeedback.Proofs.Lookup

/-!
The relations that a plan refers to. Advice on a plan is given exactly if the range table has all of
them, wherever in the plan they stand.
-/
namespace PlanFeedback

namespace Plan

/-- A node of the kind refers to the relation. -/
inductive Kind.RefersTo (relation : Nat) : Kind → Prop
  | scan {method : ScanKind} : RefersTo relation (.scan method relation)
  | foreignScan {relations : List Nat} (h : relation ∈ relations) :
      RefersTo relation (.foreignScan relations)
  | customScan {relations : List Nat} (h : relation ∈ relations) :
      RefersTo relation (.customScan relations)
  | target {exclusion? : Option Nat} : RefersTo relation (.modifyTable relation exclusion?)
  | exclusion {target : Nat} : RefersTo relation (.modifyTable target (some relation))

/-- A node of the plan refers to the relation. Edges of all sorts are followed. -/
inductive Mentions (relation : Nat) : Plan → Prop
  | self {p : Plan} (h : p.kind.RefersTo relation) : Mentions relation p
  | child {p : Plan} {b : Edge × Plan} (hb : b ∈ p.edges) (h : Mentions relation b.2) :
      Mentions relation p

theorem Kind.mem_relations {kind : Kind} {relation : Nat} :
    relation ∈ kind.relations ↔ kind.RefersTo relation := by
  constructor
  · intro h
    cases kind with
    | scan method r =>
        obtain rfl := List.mem_singleton.1 h
        exact .scan
    | foreignScan relations => exact .foreignScan h
    | customScan relations => exact .customScan h
    | modifyTable r exclusion? =>
        rcases List.mem_cons.1 h with rfl | h
        · exact .target
        · obtain rfl := Option.mem_toList.1 h
          exact .exclusion
    | bitmapIndexScan | join | composite | gather | other => cases h
  · intro h
    cases h with
    | scan => exact List.mem_cons_self
    | foreignScan h | customScan h => exact h
    | target => exact List.mem_cons_self
    | exclusion => exact List.mem_cons_of_mem _ (List.mem_singleton_self _)

theorem Mentions.node {p : Plan} {relation : Nat} (h : relation ∈ p.kind.relations) :
    Mentions relation p := .self (Kind.mem_relations.1 h)

/-- What is collected at a node and what is collected below it. -/
theorem mem_collectRelations {filter : EdgeFilter} {p : Plan} {relation : Nat} :
    relation ∈ p.collectRelations filter ↔ relation ∈ p.kind.relations ∨
      ∃ b ∈ p.edges, filter.follows b.1 = true ∧ relation ∈ b.2.collectRelations filter := by
  have hmem : ∀ q : Plan, relation ∈ q.collectRelations filter ↔ relation ∈ q.fold fun q bs =>
      q.kind.relations ++ (filter.branches bs).flatMap Branch.value := fun q => IndexSet.mem_ofList
  rw [hmem, fold_eq, List.mem_append, List.mem_flatMap]
  simp only [EdgeFilter.branches, List.mem_filter, List.mem_map, hmem]
  constructor
  · rintro (h | ⟨_, ⟨⟨b, hb, rfl⟩, hfollows⟩, h⟩)
    · exact .inl h
    · exact .inr ⟨b, hb, hfollows, h⟩
  · rintro (h | ⟨b, hb, hfollows, h⟩)
    · exact .inl h
    · exact .inr ⟨_, ⟨⟨b, hb, rfl⟩, hfollows⟩, h⟩

theorem mentions_of_mem {filter : EdgeFilter} {p : Plan} {relation : Nat}
    (h : relation ∈ p.collectRelations filter) : Mentions relation p := by
  induction p using induction_edges with
  | step p ih =>
      rcases mem_collectRelations.1 h with h | ⟨b, hb, -, h⟩
      · exact .node h
      · exact .child hb (ih b hb h)

theorem mem_collectRelations_all {p : Plan} {relation : Nat} :
    relation ∈ p.collectRelations .all ↔ Mentions relation p := by
  refine ⟨mentions_of_mem, fun h => ?_⟩
  induction h with
  | self h => exact mem_collectRelations.2 (.inl (Kind.mem_relations.2 h))
  | child hb _ ih => exact mem_collectRelations.2 (.inr ⟨_, hb, rfl, ih⟩)

theorem mentions_of_nodes {relation : Nat} {p q : Plan} (hq : q ∈ p.nodes)
    (h : Mentions relation q) : Mentions relation p := by
  induction p using induction_edges with
  | step p ih =>
      rw [nodes_eq, List.mem_cons, List.mem_flatMap] at hq
      rcases hq with rfl | ⟨b, hb, hq⟩
      · exact h
      · exact .child hb (ih b hb hq)

theorem mentions_of_shown {relation : Nat} {p : Plan} (h : relation ∈ p.shown) :
    Mentions relation p := by
  obtain ⟨q, hq, hshown⟩ := List.mem_flatMap.1 h
  refine mentions_of_nodes hq (.node ?_)
  cases hkind : q.kind with
  | modifyTable target exclusion? =>
      rw [hkind] at hshown
      exact List.mem_cons.2 (.inl (List.mem_singleton.1 hshown))
  | scan | bitmapIndexScan | foreignScan | customScan | join | composite | gather | other =>
      rw [hkind] at hshown
      exact hshown

/-- All relations that the plan refers to are among the first so many. -/
def Within (count : Nat) (p : Plan) : Prop :=
  ∀ relation, Mentions relation p → 0 < relation ∧ relation ≤ count

theorem not_within_iff {count : Nat} {p : Plan} :
    ¬ p.Within count ↔ ∃ relation, Mentions relation p ∧ (relation = 0 ∨ count < relation) := by
  simp only [Within, not_forall, exists_prop]
  refine exists_congr fun relation => and_congr_right fun _ => ?_
  omega

theorem Within.child {count : Nat} {p : Plan} {b : Edge × Plan} (h : p.Within count)
    (hb : b ∈ p.edges) : b.2.Within count :=
  fun relation hrelation => h relation (.child hb hrelation)

theorem mem_edges_outer {p c : Plan} (h : p.outer? = some c) : (.outer, c) ∈ p.edges := by
  simp [edges, edgeTo, h]

theorem mem_edges_inner {p c : Plan} (h : p.inner? = some c) : (.inner, c) ∈ p.edges := by
  simp [edges, edgeTo, h]

theorem mentions_of_effectiveRoot {p : Plan} {relation : Nat} (h : Mentions relation p.effectiveRoot) :
    Mentions relation p := by
  rw [effectiveRoot] at h
  split at h
  · exact .child (mem_edges_outer ‹_›) h
  · exact h

theorem mentions_of_spine {p q : Plan} {relation : Nat} (hq : q ∈ p.spine)
    (h : Mentions relation q) : Mentions relation p := by
  induction p using induction_spine with
  | step p houter hinner =>
      rw [spine_eq, List.mem_cons, List.mem_append] at hq
      rcases hq with rfl | hq | hq
      · exact h
      · cases hc : p.outer? with
        | none => simp [hc] at hq
        | some c =>
            rw [hc] at hq
            exact .child (mem_edges_outer hc) (houter c hc hq)
      · cases hc : p.inner? with
        | none => simp [hc] at hq
        | some c =>
            rw [hc] at hq
            exact .child (mem_edges_inner hc) (hinner c hc hq)

theorem Within.effectiveRoot {count : Nat} {p : Plan} (h : p.Within count) :
    p.effectiveRoot.Within count :=
  fun relation hrelation => h relation (mentions_of_effectiveRoot hrelation)

theorem Within.spine {count : Nat} {p : Plan} (h : p.Within count) :
    ∀ q ∈ p.spine, q.Within count :=
  fun _ hq relation hrelation => h relation (mentions_of_spine hq hrelation)

namespace Names

theorem length_assignFrom (used : IndexSet) (taken : List String) (index : Nat)
    (table : RangeTable) : (assignFrom used taken index table).length = table.length := by
  induction table generalizing taken index with
  | nil => rfl
  | cons entry table ih =>
      rw [assignFrom]
      split <;> exact congrArg (· + 1) (ih ..)

theorem length_of_assign {table : RangeTable} {used : IndexSet} {names : Names}
    (h : assign table used = .ok names) : names.toList.length = table.length := by
  rw [assign] at h
  split at h
  · cases h
  · obtain rfl := Except.ok.inj h
    exact length_assignFrom ..

end Names

end Plan

namespace Advice

open Plan (BadIndex IndexSet Kind Mentions Names RangeTable Within)

/-! Steps that succeed one after the other. -/

theorem exists_bind {α β ε : Type} {x : Except ε α} {f : α → Except ε β} (hx : ∃ a, x = .ok a)
    (hf : ∀ a, ∃ b, f a = .ok b) : ∃ b, (x >>= f) = .ok b := by
  obtain ⟨a, rfl⟩ := hx
  exact hf a

theorem exists_mapM {α β ε : Type} {f : α → Except ε β} {items : List α}
    (h : ∀ a ∈ items, ∃ b, f a = .ok b) : ∃ bs, items.mapM f = .ok bs := by
  induction items with
  | nil => exact ⟨[], rfl⟩
  | cons a items ih =>
      rw [List.mapM_cons]
      refine exists_bind (h a List.mem_cons_self) fun b => ?_
      exact exists_bind (ih fun a' ha' => h a' (List.mem_cons_of_mem a ha')) fun bs => ⟨_, rfl⟩

theorem exists_foldlM {α β ε : Type} {f : β → α → Except ε β} {items : List α}
    (h : ∀ a ∈ items, ∀ b, ∃ b', f b a = .ok b') (b : β) : ∃ b', items.foldlM f b = .ok b' := by
  induction items generalizing b with
  | nil => exact ⟨b, rfl⟩
  | cons a items ih =>
      rw [List.foldlM_cons]
      exact exists_bind (h a List.mem_cons_self b) fun b' =>
        ih (fun a' ha' => h a' (List.mem_cons_of_mem a ha')) b'

section Within

variable {table : RangeTable} {names : Names} {p : Plan}

theorem exists_planId (h : p.Within table.length) : ∃ id, planId table p = .ok id := by
  obtain ⟨s, hs⟩ := (looksUp_shapeAt table p none).exists_ok_iff.2 fun relation hrelation =>
    h relation (Plan.mentions_of_shown hrelation)
  exact ⟨s.id, by rw [planId, shape, hs]; rfl⟩

/-! The drafted directives and the join order. -/

theorem exists_list (h : p.Within names.toList.length) (filter : Plan.EdgeFilter) :
    ∃ text, names.list (p.collectRelations filter) = .ok text :=
  exists_bind (exists_mapM fun relation hrelation =>
    Plan.exists_itemAt (h relation (Plan.mentions_of_mem hrelation))) fun _ => ⟨_, rfl⟩

theorem exists_addNode (h : p.Within table.length) (hnames : names.toList.length = table.length)
    (d : Draft) : ∃ d', d.addNode names table p = .ok d' := by
  have hentry : ∀ relation ∈ p.kind.relations,
      ∃ d', (table.get relation).map (fun _ => d) = .ok d' := by
    intro relation hrelation
    obtain ⟨entry, hentry⟩ := Plan.exists_itemAt (h relation (.node hrelation))
    exact ⟨d, by rw [RangeTable.get, hentry]; rfl⟩
  unfold Draft.addNode
  split
  · rename_i kind relation hkind
    have hmentioned : relation ∈ p.kind.relations := by rw [hkind]; exact List.mem_cons_self
    refine exists_bind (Plan.exists_itemAt (hnames.symm ▸ h relation (.node hmentioned))) ?_
    intro name
    split <;> exact ⟨_, rfl⟩
  · exact exists_bind (exists_list (hnames.symm ▸ h) .skipAuxiliary) fun text => ⟨_, rfl⟩
  · rename_i relation hkind
    exact hentry relation (by rw [hkind]; exact List.mem_cons_self)
  · rename_i relation hkind
    exact hentry relation (by rw [hkind]; exact List.mem_cons_self)
  · exact ⟨d, rfl⟩

def inputOrder (names : Names) (p : Plan) : Except BadIndex String := do
  let texts ← (p.edges.filter fun b => b.1.isSpine).mapM fun b => joinOrder names b.2
  return String.join texts

theorem joinOrder_eq (names : Names) (p : Plan) :
    joinOrder names p =
      match p.kind with
      | .scan method relation =>
        if isOrdered method then do return (← names.get relation) ++ " "
        else inputOrder names p
      | .join _ => do return "(" ++ (← inputOrder names p) ++ ")"
      | _ => inputOrder names p := by
  have hinputs : concatInputs (p.edges.map fun b => ⟨b.1, b.2, joinOrder names b.2⟩) =
      inputOrder names p := by
    rw [concatInputs, Plan.EdgeFilter.branches, List.filter_map, List.mapM_map]
    rfl
  rw [← hinputs, joinOrder, Plan.fold_eq]
  rfl

theorem exists_joinOrder (h : p.Within names.toList.length) :
    ∃ text, joinOrder names p = .ok text := by
  induction p using Plan.induction_edges with
  | step p ih =>
      have hinputs : ∃ text, inputOrder names p = .ok text := by
        refine exists_bind (exists_mapM fun b hb => ?_) fun texts => ⟨_, rfl⟩
        have hedge := (List.mem_filter.1 hb).1
        exact ih b hedge (h.child hedge)
      rw [joinOrder_eq]
      split
      · rename_i method relation hkind
        have hmentioned : relation ∈ p.kind.relations := by rw [hkind]; exact List.mem_cons_self
        split
        · exact exists_bind (Plan.exists_itemAt (h relation (.node hmentioned))) fun name => ⟨_, rfl⟩
        · exact hinputs
      · exact exists_bind hinputs fun text => ⟨_, rfl⟩
      · exact hinputs

theorem exists_draft (h : p.Within table.length) (hnames : names.toList.length = table.length)
    (d : Draft) : ∃ draft, Draft.addPlan names table p d = .ok draft := by
  rw [Draft.addPlan_eq]
  exact exists_foldlM (fun q hq d => exists_addNode (h.spine q hq) hnames d) d

theorem exists_leading (h : p.Within names.toList.length) :
    ∃ order, leading names p = .ok order :=
  exists_bind (exists_joinOrder h) fun _ => ⟨_, rfl⟩

end Within

/-! The advice as a whole. -/

theorem looksUp_relationNames (table : RangeTable) (p : Plan) :
    LooksUp table.length (p.collectRelations .all).toList (relationNames table p) :=
  looksUp_assign table _

/-- With names given out, the plan refers to no relation that the table lacks. -/
theorem within_of_relationNames {table : RangeTable} {p : Plan} {names : Names}
    (h : relationNames table p = .ok names) : p.Within table.length := by
  intro relation hrelation
  exact (looksUp_relationNames table p).exists_ok_iff.1 ⟨names, h⟩ relation
    (Plan.mem_collectRelations_all.2 hrelation)

theorem exists_directives {table : RangeTable} {p : Plan} {names : Names}
    (hnames : relationNames table p = .ok names) : ∃ d, directives table p = .ok d := by
  have hwithin := (within_of_relationNames hnames).effectiveRoot
  have hlength := Names.length_of_assign hnames
  have hwith : ∃ d, directivesWith names table p.effectiveRoot = .ok d :=
    exists_bind (exists_draft hwithin hlength {}) fun draft =>
      exists_bind (exists_leading (hlength.symm ▸ hwithin)) fun order => ⟨_, rfl⟩
  rw [directives, hnames]
  exact hwith

/-- Nothing is looked up in vain once names are given out. -/
theorem looksUp_directives (table : RangeTable) (p : Plan) :
    LooksUp table.length (p.collectRelations .all).toList (directives table p) := by
  rw [LooksUp]
  rcases (looksUp_relationNames table p).cases with ⟨relation, hfind, hnames⟩ | ⟨hfind, names, hnames⟩
  · rw [hfind, directives, hnames]
    rfl
  · rw [hfind]
    exact exists_directives hnames

/-- A plan has directives unless it refers to a relation that the table lacks. -/
theorem directives_error_iff {table : RangeTable} {p : Plan} :
    (∃ bad, directives table p = .error bad) ↔ ¬ p.Within table.length := by
  rw [(looksUp_directives table p).exists_error_iff, Plan.not_within_iff]
  refine exists_congr fun relation => and_congr Plan.mem_collectRelations_all ?_
  omega

end Advice

end PlanFeedback
