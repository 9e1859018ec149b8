import Mathlib.Logic.Relation
import PlanFeedback.Proofs.Indexes
import PlanFeedback.Proofs.Walk

/-!
The nodes that a plan reaches along the edges a filter follows. The relations collected from a plan
are those of the nodes it reaches, so they grow with the filter and take in those of every plan
further down. A walk that puts the relations of each node into one set is never cut short and ends
with the same set.
-/
namespace PlanFeedback.Plan

variable {filter : EdgeFilter} {p q child : Plan} {relation : Nat}

/-! Edges. -/

/-- The child stands in the plan where the edge says. -/
inductive IsEdge (p : Plan) : Edge → Plan → Prop
  | outer {child : Plan} (h : p.outer? = some child) : IsEdge p .outer child
  | inner {child : Plan} (h : p.inner? = some child) : IsEdge p .inner child
  | member {i : Nat} {child : Plan} (h : p.members[i]? = some child) : IsEdge p (.member i) child
  | initPlan {i : Nat} {child : Plan} (h : p.initPlans[i]? = some child) :
      IsEdge p (.initPlan i) child
  | subPlan {i : Nat} {child : Plan} (h : p.subPlans[i]? = some child) : IsEdge p (.subPlan i) child

theorem mem_edgeTo {e edge : Edge} {p? : Option Plan} :
    (edge, child) ∈ edgeTo e p? ↔ edge = e ∧ p? = some child := by
  cases p? with
  | none => simp [edgeTo]
  | some p => simp [edgeTo, eq_comm]

theorem mem_edgesFrom {sort : Nat → Edge} {i : Nat} {ps : List Plan} {edge : Edge} :
    (edge, child) ∈ edgesFrom sort i ps ↔ ∃ k, edge = sort (i + k) ∧ ps[k]? = some child := by
  induction ps generalizing i with
  | nil => simp [edgesFrom]
  | cons p ps ih =>
      rw [edgesFrom, List.mem_cons, ih]
      constructor
      · rintro (hhead | ⟨k, rfl, hk⟩)
        · obtain ⟨rfl, rfl⟩ := Prod.mk.inj hhead
          exact ⟨0, rfl, rfl⟩
        · exact ⟨k + 1, by rw [Nat.add_right_comm, Nat.add_assoc], hk⟩
      · rintro ⟨k, rfl, hk⟩
        cases k with
        | zero =>
            obtain rfl := Option.some.inj hk
            exact .inl rfl
        | succ k => exact .inr ⟨k, by rw [Nat.add_right_comm, Nat.add_assoc], hk⟩

/-- All edges are listed, and none but these. -/
theorem mem_edges_iff {edge : Edge} : (edge, child) ∈ p.edges ↔ IsEdge p edge child := by
  simp only [edges, List.mem_append, mem_edgeTo, mem_edgesFrom, Nat.zero_add]
  constructor
  · rintro ((((⟨rfl, h⟩ | ⟨rfl, h⟩) | ⟨i, rfl, h⟩) | ⟨i, rfl, h⟩) | ⟨i, rfl, h⟩)
    · exact .outer h
    · exact .inner h
    · exact .member h
    · exact .initPlan h
    · exact .subPlan h
  · intro h
    cases h with
    | outer h => exact .inl (.inl (.inl (.inl ⟨rfl, h⟩)))
    | inner h => exact .inl (.inl (.inl (.inr ⟨rfl, h⟩)))
    | member h => exact .inl (.inl (.inr ⟨_, rfl, h⟩))
    | initPlan h => exact .inl (.inr ⟨_, rfl, h⟩)
    | subPlan h => exact .inr ⟨_, rfl, h⟩

/-! Reached nodes. -/

/-- The child stands at the end of an edge that the filter follows. -/
def HasChild (filter : EdgeFilter) (p child : Plan) : Prop :=
  ∃ edge, IsEdge p edge child ∧ filter.follows edge = true

/-- From the plan to the node there are edges that the filter follows, none if it is the plan
itself. -/
def Reaches (filter : EdgeFilter) : Plan → Plan → Prop := Relation.ReflTransGen (HasChild filter)

theorem Reaches.mono {wider : EdgeFilter}
    (h : ∀ edge, filter.follows edge = true → wider.follows edge = true)
    (hreach : Reaches filter p q) : Reaches wider p q := by
  refine Relation.ReflTransGen.mono ?_ p q hreach
  rintro parent child ⟨edge, hedge, hfollows⟩
  exact ⟨edge, hedge, h edge hfollows⟩

/-- What is collected from a plan is what the nodes it reaches refer to. -/
theorem mem_collectRelations_iff_reaches :
    relation ∈ p.collectRelations filter ↔ ∃ q, Reaches filter p q ∧ relation ∈ q.kind.relations := by
  induction p using induction_edges with
  | step p ih =>
      rw [mem_collectRelations]
      constructor
      · rintro (hown | ⟨b, hb, hfollows, hbelow⟩)
        · exact ⟨p, .refl, hown⟩
        · obtain ⟨q, hreach, hq⟩ := (ih b hb).1 hbelow
          exact ⟨q, .head ⟨b.1, mem_edges_iff.1 hb, hfollows⟩ hreach, hq⟩
      · rintro ⟨q, hreach, hq⟩
        rcases hreach.cases_head with rfl | ⟨child, ⟨edge, hedge, hfollows⟩, hrest⟩
        · exact .inl hq
        · have hb := mem_edges_iff.2 hedge
          exact .inr ⟨(edge, child), hb, hfollows, (ih _ hb).2 ⟨q, hrest, hq⟩⟩

/-- A filter that follows more edges collects more. -/
theorem mem_collectRelations_mono {wider : EdgeFilter}
    (h : ∀ edge, filter.follows edge = true → wider.follows edge = true)
    (hr : relation ∈ p.collectRelations filter) : relation ∈ p.collectRelations wider := by
  obtain ⟨q, hreach, hq⟩ := mem_collectRelations_iff_reaches.1 hr
  exact mem_collectRelations_iff_reaches.2 ⟨q, hreach.mono h, hq⟩

theorem mem_collectRelations_of_reaches (hreach : Reaches filter p q)
    (hr : relation ∈ q.collectRelations filter) : relation ∈ p.collectRelations filter := by
  obtain ⟨node, hnode, hrelation⟩ := mem_collectRelations_iff_reaches.1 hr
  exact mem_collectRelations_iff_reaches.2 ⟨node, hreach.trans hnode, hrelation⟩

theorem follows_skipAuxiliary (edge : Edge) (h : EdgeFilter.spine.follows edge = true) :
    EdgeFilter.skipAuxiliary.follows edge = true := by
  cases edge with
  | outer => rfl
  | inner => rfl
  | member | initPlan | subPlan => cases h

/-! The walk that gathers relations. -/

def IndexSet.insertAll (s : IndexSet) (relations : List Nat) : IndexSet :=
  relations.foldl (fun s r => s.insert r) s

theorem IndexSet.mem_insertAll {s : IndexSet} {relations : List Nat} :
    relation ∈ s.insertAll relations ↔ relation ∈ s ∨ relation ∈ relations := by
  induction relations generalizing s with
  | nil => simp [insertAll]
  | cons r relations ih =>
      change relation ∈ (s.insert r).insertAll relations ↔ _
      rw [ih, mem_insert, List.mem_cons, or_comm (a := relation = r), or_assoc]

/-- Puts the relations of the node into the set and then visits the children in the same way, until
a visit asks to stop; answers whether one did. -/
def gatherRelations (filter : EdgeFilter) (p : Plan) : StateM IndexSet Bool :=
  p.fold fun q bs => do
    modify fun s => s.insertAll q.kind.relations
    (filter.branches bs).anyM Branch.value

theorem gatherRelations_eq (filter : EdgeFilter) (p : Plan) :
    p.gatherRelations filter = (do
      modify fun s => s.insertAll p.kind.relations
      p.walkChildren filter fun _ child => child.gatherRelations filter) := by
  rw [gatherRelations, fold_eq, EdgeFilter.branches, List.filter_map, anyM_map]
  rfl

/-- The step does not ask to stop and adds these relations to any set. -/
def Gathers (step : StateM IndexSet Bool) (new : Set Nat) : Prop :=
  ∀ s, (step.run s).1 = false ∧
    ∀ relation, relation ∈ (step.run s).2 ↔ relation ∈ s ∨ relation ∈ new

theorem Gathers.orElse {step next : StateM IndexSet Bool} {new later : Set Nat}
    (hstep : Gathers step new) (hnext : Gathers next later) :
    Gathers (do if ← step then return true else next) (new ∪ later) := by
  intro s
  obtain ⟨hstops, hmem⟩ := hstep s
  rw [run_orElse]
  cases hrun : step.run s with
  | mk stops t =>
      rw [hrun] at hstops hmem
      obtain rfl : stops = false := hstops
      refine ⟨(hnext t).1, fun relation => ?_⟩
      rw [Set.mem_union, ← or_assoc, ← hmem relation]
      exact (hnext t).2 relation

theorem gathers_anyM {α : Type} {visit : α → StateM IndexSet Bool} {new : α → Set Nat}
    {items : List α} (h : ∀ a ∈ items, Gathers (visit a) (new a)) :
    Gathers (items.anyM visit) {relation | ∃ a ∈ items, relation ∈ new a} := by
  induction items with
  | nil =>
      intro s
      refine ⟨rfl, fun relation => (or_iff_left ?_).symm⟩
      rintro ⟨a, ha, -⟩
      exact List.not_mem_nil ha
  | cons a items ih =>
      have hrest := ih fun a' ha' => h a' (List.mem_cons_of_mem a ha')
      have hall := (h a List.mem_cons_self).orElse hrest
      have hunion : {relation | ∃ a' ∈ a :: items, relation ∈ new a'} =
          new a ∪ {relation | ∃ a' ∈ items, relation ∈ new a'} := by
        ext relation
        exact List.exists_mem_cons_iff _ a items
      rw [List.anyM_cons, hunion]
      exact hall

theorem gathers_insertAll {next : StateM IndexSet Bool} {new : Set Nat} (relations : List Nat)
    (h : Gathers next new) :
    Gathers (do modify fun s => s.insertAll relations; next)
      ({relation | relation ∈ relations} ∪ new) := by
  intro s
  obtain ⟨hstops, hmem⟩ := h (s.insertAll relations)
  refine ⟨hstops, fun relation => ?_⟩
  rw [Set.mem_union, ← or_assoc]
  exact (hmem relation).trans (or_congr_left IndexSet.mem_insertAll)

theorem gathers_gatherRelations (filter : EdgeFilter) (p : Plan) :
    Gathers (p.gatherRelations filter) {relation | relation ∈ p.collectRelations filter} := by
  induction p using induction_edges with
  | step p ih =>
      have hchildren : Gathers
          (p.walkChildren filter fun _ child => child.gatherRelations filter)
          {relation | ∃ b ∈ p.edges.filter fun b => filter.follows b.1,
            relation ∈ b.2.collectRelations filter} :=
        gathers_anyM fun b hb => ih b (List.mem_filter.1 hb).1
      have hcollected : {relation | relation ∈ p.collectRelations filter} =
          {relation | relation ∈ p.kind.relations} ∪
            {relation | ∃ b ∈ p.edges.filter fun b => filter.follows b.1,
              relation ∈ b.2.collectRelations filter} := by
        ext relation
        refine mem_collectRelations.trans (or_congr_right (exists_congr fun b => ?_))
        rw [List.mem_filter, and_assoc]
      rw [gatherRelations_eq, hcollected]
      exact gathers_insertAll p.kind.relations hchildren

theorem run_gatherRelations (filter : EdgeFilter) (p : Plan) :
    (p.gatherRelations filter).run .empty = (false, p.collectRelations filter) := by
  obtain ⟨hstops, hmem⟩ := gathers_gatherRelations filter p .empty
  refine Prod.ext hstops (IndexSet.ext_mem fun relation => ?_)
  rw [hmem relation]
  exact or_iff_right List.not_mem_nil

/-- The walk that gathers relations is never cut short, and what it ends with is what is collected:
the relations of the reached nodes. A filter that follows more collects more, and a plan, such as a
join, collects all that any plan it reaches does. -/
theorem collects_reached (filter : EdgeFilter) (p : Plan) :
    (p.gatherRelations filter).run .empty = (false, p.collectRelations filter) ∧
    (∀ relation, relation ∈ p.collectRelations filter ↔
      ∃ q, Reaches filter p q ∧ relation ∈ q.kind.relations) ∧
    (∀ relation ∈ p.collectRelations .spine, relation ∈ p.collectRelations .skipAuxiliary) ∧
    (∀ relation ∈ p.collectRelations .skipAuxiliary, relation ∈ p.collectRelations .all) ∧
    ∀ q, Reaches filter p q →
      ∀ relation ∈ q.collectRelations filter, relation ∈ p.collectRelations filter := by
  refine ⟨run_gatherRelations filter p, fun _ => mem_collectRelations_iff_reaches, ?_, ?_, ?_⟩
  · intro relation hr
    exact mem_collectRelations_mono follows_skipAuxiliary hr
  · intro relation hr
    exact mem_collectRelations_mono (fun _ _ => rfl) hr
  · intro q hreach relation hr
    exact mem_collectRelations_of_reaches hreach hr

def innerJoin : Plan :=
  .join .nestLoop ((scan .seq 1 10).withSubPlan (scan .seq 4 1)) (scan .index 5 1) 10

def outerJoin : Plan :=
  .join .hashJoin innerJoin (.composite .append [scan .seq 2 5, scan .seq 3 5] 10) 20

theorem collects_reached_nested :
    Reaches .all outerJoin innerJoin ∧
    (∀ relation ∈ innerJoin.collectRelations .all, relation ∈ outerJoin.collectRelations .all) ∧
    (∃ q, Reaches .all outerJoin q ∧ 4 ∈ q.kind.relations) ∧
    (¬ ∃ q, Reaches .skipAuxiliary outerJoin q ∧ 4 ∈ q.kind.relations) ∧
    (outerJoin.collectRelations .spine).toList = [1, 5] ∧
    (outerJoin.collectRelations .skipAuxiliary).toList = [1, 2, 3, 5] ∧
    (outerJoin.collectRelations .all).toList = [1, 2, 3, 4, 5] := by
  have hreach : Reaches .all outerJoin innerJoin :=
    .single ⟨.outer, .outer rfl, rfl⟩
  have hspine : (outerJoin.collectRelations .spine).toList = [1, 5] := by decide
  have hskip : (outerJoin.collectRelations .skipAuxiliary).toList = [1, 2, 3, 5] := by decide
  have hall : (outerJoin.collectRelations .all).toList = [1, 2, 3, 4, 5] := by decide
  obtain ⟨-, hmem, -, -, hbelow⟩ := collects_reached .all outerJoin
  obtain ⟨-, hmemSkip, -⟩ := collects_reached .skipAuxiliary outerJoin
  refine ⟨hreach, hbelow innerJoin hreach, (hmem 4).1 ?_, fun h => ?_, hspine, hskip, hall⟩
  · change 4 ∈ (outerJoin.collectRelations .all).toList
    rw [hall]
    decide
  · have hfour : 4 ∈ (outerJoin.collectRelations .skipAuxiliary).toList := (hmemSkip 4).2 h
    rw [hskip] at hfour
    exact absurd hfour (by decide)

end PlanFeedback.Plan
