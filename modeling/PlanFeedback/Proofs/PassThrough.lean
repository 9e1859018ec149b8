import PlanFeedback.Proofs.Indexes

/-!
Operators that hand on the rows of a single input. The directives of a plan are the same with and
without such an operator above any part of the plan, and with and without an invisible gather above
the whole.
-/
namespace PlanFeedback

namespace Plan

/-- The plan with something else made of the part that a path of edges leads to. A path that leads to
no part changes nothing. -/
def modifyAt (f : Plan → Plan) : List Edge → Plan → Plan
  | [], p => f p
  | .outer :: path, p => { p with outer? := p.outer?.map (modifyAt f path) }
  | .inner :: path, p => { p with inner? := p.inner?.map (modifyAt f path) }
  | .member i :: path, p => { p with members := p.members.modify i (modifyAt f path) }
  | .initPlan i :: path, p => { p with initPlans := p.initPlans.modify i (modifyAt f path) }
  | .subPlan i :: path, p => { p with subPlans := p.subPlans.modify i (modifyAt f path) }

def under (kind : Kind) (estimate : Float) (counts? : Option Counts) (p : Plan) : Plan :=
  { kind, estimate, counts?, outer? := some p }

/-- A node of this kind adds nothing to the directives. -/
def Kind.isSilent : Kind → Bool
  | .gather _ | .other _ => true
  | _ => false

/-! Children that are related one by one. -/

section Related

variable {R : Plan → Plan → Prop}

/-- The same edge leads to related plans. -/
def EdgeRel (R : Plan → Plan → Prop) (b c : Edge × Plan) : Prop := b.1 = c.1 ∧ R b.2 c.2

theorem forall₂_edgeTo (e : Edge) {p? q? : Option Plan} (h : Option.Rel R p? q?) :
    List.Forall₂ (EdgeRel R) (edgeTo e p?) (edgeTo e q?) := by
  cases h with
  | none => exact .nil
  | some h => exact .cons ⟨rfl, h⟩ .nil

theorem forall₂_edgesFrom (sort : Nat → Edge) {ps qs : List Plan} (h : List.Forall₂ R ps qs) :
    ∀ i, List.Forall₂ (EdgeRel R) (edgesFrom sort i ps) (edgesFrom sort i qs) := by
  induction h with
  | nil => exact fun _ => .nil
  | cons h _ ih => exact fun i => .cons ⟨rfl, h⟩ (ih (i + 1))

theorem forall₂_edges {p q : Plan} (houter : Option.Rel R p.outer? q.outer?)
    (hinner : Option.Rel R p.inner? q.inner?) (hmembers : List.Forall₂ R p.members q.members)
    (hinit : List.Forall₂ R p.initPlans q.initPlans)
    (hsub : List.Forall₂ R p.subPlans q.subPlans) :
    List.Forall₂ (EdgeRel R) p.edges q.edges :=
  List.rel_append (List.rel_append (List.rel_append (List.rel_append
    (forall₂_edgeTo .outer houter) (forall₂_edgeTo .inner hinner))
    (forall₂_edgesFrom .member hmembers 0)) (forall₂_edgesFrom .initPlan hinit 0))
    (forall₂_edgesFrom .subPlan hsub 0)

variable {g : Plan → Plan}

theorem optionRel_map (hg : ∀ q, R (g q) q) (p? : Option Plan) : Option.Rel R (p?.map g) p? := by
  cases p? with
  | none => exact .none
  | some p => exact .some (hg p)

theorem forall₂_modify (hrefl : ∀ q, R q q) (hg : ∀ q, R (g q) q) (ps : List Plan) :
    ∀ i, List.Forall₂ R (ps.modify i g) ps := by
  induction ps with
  | nil => exact fun i => by rw [List.modify_nil]; exact .nil
  | cons p ps ih =>
      intro i
      cases i with
      | zero => exact .cons (hg p) (List.forall₂_same.2 fun q _ => hrefl q)
      | succ i => exact .cons (hrefl p) (ih i)

/-- Where a part below a node is modified, the children stay related. -/
theorem forall₂_edges_modifyAt {f : Plan → Plan} {path : List Edge} (hrefl : ∀ q, R q q)
    (hf : ∀ q, R (modifyAt f path q) q) (e : Edge) (p : Plan) :
    List.Forall₂ (EdgeRel R) (modifyAt f (e :: path) p).edges p.edges := by
  have hoption : ∀ p? : Option Plan, Option.Rel R p? p? := by
    intro p?
    cases p? with
    | none => exact .none
    | some q => exact .some (hrefl q)
  have hlist : ∀ ps : List Plan, List.Forall₂ R ps ps :=
    fun ps => List.forall₂_same.2 fun q _ => hrefl q
  cases e with
  | outer => exact forall₂_edges (optionRel_map hf _) (hoption _) (hlist _) (hlist _) (hlist _)
  | inner => exact forall₂_edges (hoption _) (optionRel_map hf _) (hlist _) (hlist _) (hlist _)
  | member i =>
      exact forall₂_edges (hoption _) (hoption _) (forall₂_modify hrefl hf _ i) (hlist _) (hlist _)
  | initPlan i =>
      exact forall₂_edges (hoption _) (hoption _) (hlist _) (forall₂_modify hrefl hf _ i) (hlist _)
  | subPlan i =>
      exact forall₂_edges (hoption _) (hoption _) (hlist _) (hlist _) (forall₂_modify hrefl hf _ i)

end Related

theorem root_modifyAt (f : Plan → Plan) (e : Edge) (path : List Edge) (p : Plan) :
    (modifyAt f (e :: path) p).kind = p.kind ∧
      (modifyAt f (e :: path) p).estimate = p.estimate ∧
      (modifyAt f (e :: path) p).actual? = p.actual? ∧
      (p.inner? = none → (modifyAt f (e :: path) p).inner? = none) := by
  cases e with
  | inner =>
      refine ⟨rfl, rfl, rfl, fun h => ?_⟩
      rw [modifyAt, h]
      rfl
  | outer | member i | initPlan i | subPlan i => exact ⟨rfl, rfl, rfl, id⟩

theorem isSilent_iff {kind : Kind} :
    kind.isSilent = true ↔ (∃ invisible, kind = .gather invisible) ∨ ∃ name, kind = .other name := by
  cases kind <;> simp [Kind.isSilent]

/-- A silent node above a plan refers to the relations of the plan and to no others. -/
theorem collectRelations_under {kind : Kind} (h : kind.isSilent = true) (estimate : Float)
    (counts? : Option Counts) (p : Plan) (filter : EdgeFilter) :
    (under kind estimate counts? p).collectRelations filter = p.collectRelations filter := by
  apply IndexSet.ext_mem
  intro relation
  have hedges : (under kind estimate counts? p).edges = [(.outer, p)] := rfl
  have hfollows : filter.follows .outer = true := by cases filter <;> rfl
  have hrelations : (under kind estimate counts? p).kind.relations = [] := by
    rcases isSilent_iff.1 h with ⟨invisible, rfl⟩ | ⟨name, rfl⟩ <;> rfl
  rw [mem_collectRelations, hedges, hrelations]
  simp [hfollows]

end Plan

namespace Advice

open Plan (BadIndex Edge EdgeFilter EdgeRel Kind Names RangeTable)

/-! Lists that are related item by item. -/

theorem exists_mem_congr_forall₂ {α β : Type} {P : α → Prop} {Q : β → Prop} {xs : List α}
    {ys : List β} (h : List.Forall₂ (fun a b => P a ↔ Q b) xs ys) :
    (∃ a ∈ xs, P a) ↔ ∃ b ∈ ys, Q b := by
  induction h with
  | nil => simp
  | cons hab _ ih => rw [List.exists_mem_cons_iff, List.exists_mem_cons_iff, hab, ih]

theorem mapM_congr_forall₂ {α β γ ε : Type} {f : α → Except ε γ} {g : β → Except ε γ}
    {xs : List α} {ys : List β} (h : List.Forall₂ (fun a b => f a = g b) xs ys) :
    xs.mapM f = ys.mapM g := by
  induction h with
  | nil => rfl
  | cons hab _ ih => rw [List.mapM_cons, List.mapM_cons, hab, ih]

theorem foldlM_congr_forall₂ {α β σ ε : Type} {f : σ → α → Except ε σ} {g : σ → β → Except ε σ}
    {xs : List α} {ys : List β} (h : List.Forall₂ (fun a b => ∀ s, f s a = g s b) xs ys) :
    ∀ s, xs.foldlM f s = ys.foldlM g s := by
  induction h with
  | nil => exact fun _ => rfl
  | cons hab _ ih =>
      intro s
      rw [List.foldlM_cons, List.foldlM_cons, hab]
      exact bind_congr ih

/-! One node of the passes that make directives. -/

theorem addPlan_edges (names : Names) (table : RangeTable) (p : Plan) (d : Draft) :
    Draft.addPlan names table p d = d.addNode names table p >>=
      (p.edges.filter fun b => b.1.isSpine).foldlM fun d b => Draft.addPlan names table b.2 d := by
  rw [Draft.addPlan, Plan.fold_eq]
  refine bind_congr fun d => ?_
  rw [EdgeFilter.branches, List.filter_map, List.foldlM_map]
  rfl

/-! Plans that cannot be told apart. -/

/-- Neither the relations nor the drafted directives nor the join order tell the two plans apart. -/
structure Alike (p q : Plan) : Prop where
  relations : ∀ filter, p.collectRelations filter = q.collectRelations filter
  draft : ∀ names table d, Draft.addPlan names table p d = Draft.addPlan names table q d
  order : ∀ names, joinOrder names p = joinOrder names q

namespace Alike

theorem refl (p : Plan) : Alike p p := ⟨fun _ => rfl, fun _ _ _ => rfl, fun _ => rfl⟩

/-- What cannot be told apart below a node cannot be told apart with the node above it. -/
theorem node {p q : Plan} (hkind : p.kind = q.kind) (hestimate : p.estimate = q.estimate)
    (hactual : p.actual? = q.actual?) (hedges : List.Forall₂ (EdgeRel Alike) p.edges q.edges) :
    Alike p q := by
  have hrelations : ∀ filter, p.collectRelations filter = q.collectRelations filter := by
    intro filter
    apply Plan.IndexSet.ext_mem
    intro relation
    rw [Plan.mem_collectRelations, Plan.mem_collectRelations, hkind]
    refine or_congr_right (exists_mem_congr_forall₂ (hedges.imp fun b c hbc => ?_))
    rw [hbc.1, hbc.2.relations filter]
  have hspine : List.Forall₂ (EdgeRel Alike) (p.edges.filter fun b => b.1.isSpine)
      (q.edges.filter fun b => b.1.isSpine) :=
    List.rel_filter (fun b c hbc => by simp only [hbc.1]) hedges
  refine ⟨hrelations, fun names table d => ?_, fun names => ?_⟩
  · rw [addPlan_edges, addPlan_edges, Draft.addNode_congr hkind hestimate hactual (hrelations _)]
    exact bind_congr <| foldlM_congr_forall₂ <|
      hspine.imp fun b c hbc d => hbc.2.draft names table d
  · have hinputs : inputOrder names p = inputOrder names q :=
      congrArg (· >>= _) (mapM_congr_forall₂ (hspine.imp fun b c hbc => hbc.2.order names))
    rw [joinOrder_eq, joinOrder_eq, hinputs, hkind]

theorem modifyAt {f : Plan → Plan} (hf : ∀ q, Alike (f q) q) (path : List Edge) (p : Plan) :
    Alike (p.modifyAt f path) p := by
  induction path generalizing p with
  | nil => exact hf p
  | cons e path ih =>
      obtain ⟨hkind, hestimate, hactual, -⟩ := Plan.root_modifyAt f e path p
      exact node hkind hestimate hactual (Plan.forall₂_edges_modifyAt refl ih e p)

end Alike

/-! Nodes that hand on a single input. -/

section Silent

variable {p c : Plan} (hkind : p.kind.isSilent = true)
  (hinput : (p.edges.filter fun b => b.1.isSpine) = [(.outer, c)])

include hkind hinput

theorem addPlan_silent (names : Names) (table : RangeTable) (d : Draft) :
    Draft.addPlan names table p d = Draft.addPlan names table c d := by
  have hnode : d.addNode names table p = .ok d := by
    unfold Draft.addNode
    rcases Plan.isSilent_iff.1 hkind with ⟨invisible, hp⟩ | ⟨name, hp⟩ <;> rw [hp]
  rw [addPlan_edges, hnode, hinput]
  exact bind_pure (Draft.addPlan names table c d)

theorem joinOrder_silent (names : Names) : joinOrder names p = joinOrder names c := by
  have hinputs : inputOrder names p = joinOrder names c := by
    rw [inputOrder, hinput, List.mapM_cons]
    cases joinOrder names c with
    | error bad => rfl
    | ok text => exact congrArg Except.ok (by simp [String.join_cons])
  rw [joinOrder_eq]
  rcases Plan.isSilent_iff.1 hkind with ⟨invisible, hp⟩ | ⟨name, hp⟩ <;> rw [hp] <;> exact hinputs

theorem directivesWith_silent (names : Names) (table : RangeTable) :
    directivesWith names table p = directivesWith names table c := by
  rw [directivesWith, directivesWith, addPlan_silent hkind hinput, leading, leading,
    joinOrder_silent hkind hinput]

end Silent

theorem alike_under {kind : Kind} (h : kind.isSilent = true) (estimate : Float)
    (counts? : Option Plan.Counts) (p : Plan) : Alike (p.under kind estimate counts?) p where
  relations := Plan.collectRelations_under h estimate counts? p
  draft := addPlan_silent h rfl
  order := joinOrder_silent h rfl

/-- An invisible gather over a single input may as well be taken in. -/
theorem directivesWith_effectiveRoot {p : Plan} (hroot : p.kind = .gather true → p.inner? = none)
    (names : Names) (table : RangeTable) :
    directivesWith names table p.effectiveRoot = directivesWith names table p := by
  rw [Plan.effectiveRoot]
  split
  · rename_i c hkind houter
    refine (directivesWith_silent (by rw [hkind]; rfl) ?_ names table).symm
    rw [Plan.filter_edges, houter, hroot hkind]
    rfl
  · rfl

/-- Plans that cannot be told apart have the same directives. -/
theorem Alike.directives {p q : Plan} (h : Alike p q)
    (hp : p.kind = .gather true → p.inner? = none) (hq : q.kind = .gather true → q.inner? = none)
    (table : RangeTable) : directives table p = directives table q := by
  have hnames : relationNames table p = relationNames table q := by
    rw [relationNames, relationNames, h.relations]
  rw [Advice.directives, Advice.directives, hnames]
  refine bind_congr fun names => ?_
  rw [directivesWith_effectiveRoot hp, directivesWith_effectiveRoot hq, directivesWith,
    directivesWith, h.draft, leading, leading, h.order]

/-- An operator that hands on its only input leaves no trace in the directives, be they a result or an
error: neither one of the other operators or a gather that is shown, above any part of the plan, nor
an invisible gather above the whole. -/
theorem directives_transparent (table : RangeTable) (p : Plan)
    (hroot : p.kind = .gather true → p.inner? = none) :
    (∀ kind estimate counts? path, (kind = .gather false ∨ ∃ name, kind = .other name) →
      directives table (p.modifyAt (Plan.under kind estimate counts?) path) = directives table p) ∧
    ∀ estimate counts?,
      directives table (p.under (.gather true) estimate counts?) = directives table p := by
  refine ⟨fun kind estimate counts? path hkind => ?_, fun estimate counts? => ?_⟩
  · have hsilent : kind.isSilent = true := by
      rcases hkind with rfl | ⟨name, rfl⟩ <;> rfl
    have halike := Alike.modifyAt (alike_under hsilent estimate counts?) path p
    refine halike.directives (fun hgather => ?_) hroot table
    cases path with
    | nil =>
        change kind = .gather true at hgather
        rcases hkind with rfl | ⟨name, rfl⟩ <;> cases hgather
    | cons e path =>
        obtain ⟨hsame, -, -, hinner⟩ := Plan.root_modifyAt (Plan.under kind estimate counts?) e path p
        exact hinner (hroot (hsame ▸ hgather))
  · exact (alike_under rfl estimate counts? p).directives (fun _ => rfl) hroot table

/-- Behind an invisible gather, a join with an append in which the given part is a member. -/
def appending (part : Plan) : Plan where
  kind := .gather true
  estimate := 20
  outer? := some ((Plan.join .hashJoin (Plan.scan .seq 1 10)
    (Plan.unary "Hash" (Plan.composite .append [Plan.scan .index 2 5, part] 9) 9) 20).withActual 7)

def joinedMember : Plan :=
  (Plan.join .nestLoop (Plan.scan .bitmapHeap 2 5) (Plan.scan .cte 3 1) 5).withSubPlan
    (Plan.scan .seq 4 1)

theorem directives_transparent_member :
    ((appending joinedMember).kind = .gather true → (appending joinedMember).inner? = none) ∧
      (directives (["a", "b", "c", "a"].map .ofRelation) (appending joinedMember)).isOk = true ∧
      directives (["a", "b", "c", "a"].map .ofRelation)
          (appending (joinedMember.under (.other "Sort") 3 (some ⟨0, 0⟩))) =
        directives (["a", "b", "c", "a"].map .ofRelation) (appending joinedMember) ∧
      directives (["a", "b", "c", "a"].map .ofRelation)
          ((appending joinedMember).under (.gather true) 3 none) =
        directives (["a", "b", "c", "a"].map .ofRelation) (appending joinedMember) := by
  have hroot : (appending joinedMember).kind = .gather true →
      (appending joinedMember).inner? = none := fun _ => rfl
  obtain ⟨habove, hgather⟩ := directives_transparent (["a", "b", "c", "a"].map .ofRelation)
    (appending joinedMember) hroot
  refine ⟨hroot, by decide +kernel, ?_, hgather 3 none⟩
  have hposition : (appending joinedMember).modifyAt
      (Plan.under (.other "Sort") 3 (some ⟨0, 0⟩)) [.outer, .inner, .outer, .member 1] =
        appending (joinedMember.under (.other "Sort") 3 (some ⟨0, 0⟩)) := rfl
  rw [← hposition]
  exact habove (.other "Sort") 3 (some ⟨0, 0⟩) _ (.inr ⟨"Sort", rfl⟩)

end Advice

end PlanFeedback
