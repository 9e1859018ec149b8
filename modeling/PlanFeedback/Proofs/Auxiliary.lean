import PlanFeedback.Proofs.Indexes

/-!
Auxiliary plans. The directives of a plan do not speak of what its init plans and sub plans do;
these show only in the names that tell relations apart.
-/
namespace PlanFeedback

namespace Plan

/-! Plans without auxiliary plans. -/

mutual

/-- The plan with neither init plans nor sub plans at any node. -/
def trimmed : Plan → Plan
  | ⟨kind, estimate, counts?, outer?, inner?, members, _, _⟩ =>
    { kind, estimate, counts?, outer? := trimmedOption outer?, inner? := trimmedOption inner?,
      members := trimmedList members }

def trimmedOption : Option Plan → Option Plan
  | none => none
  | some p => some p.trimmed

def trimmedList : List Plan → List Plan
  | [] => []
  | p :: rest => p.trimmed :: trimmedList rest

end

theorem trimmedOption_eq (p? : Option Plan) : trimmedOption p? = p?.map trimmed := by
  cases p? <;> rfl

@[simp] theorem kind_trimmed (p : Plan) : p.trimmed.kind = p.kind := by
  cases p
  rw [trimmed]

@[simp] theorem estimate_trimmed (p : Plan) : p.trimmed.estimate = p.estimate := by
  cases p
  rw [trimmed]

@[simp] theorem actual?_trimmed (p : Plan) : p.trimmed.actual? = p.actual? := by
  cases p
  rw [trimmed]
  rfl

@[simp] theorem outer?_trimmed (p : Plan) : p.trimmed.outer? = p.outer?.map trimmed := by
  cases p
  rw [trimmed]
  exact trimmedOption_eq _

@[simp] theorem inner?_trimmed (p : Plan) : p.trimmed.inner? = p.inner?.map trimmed := by
  cases p
  rw [trimmed]
  exact trimmedOption_eq _

theorem edgesFrom_trimmed (sort : Nat → Edge) (i : Nat) (ps : List Plan) :
    edgesFrom sort i (trimmedList ps) = (edgesFrom sort i ps).map fun b => (b.1, b.2.trimmed) := by
  induction ps generalizing i with
  | nil => rfl
  | cons p ps ih => rw [trimmedList, edgesFrom, ih, edgesFrom, List.map_cons]

theorem filter_edgesFrom_auxiliary {sort : Nat → Edge} {auxiliary : Bool}
    (hsort : ∀ i, (sort i).isAuxiliary = auxiliary) (i : Nat) (ps : List Plan) :
    (edgesFrom sort i ps).filter (fun b => !b.1.isAuxiliary) =
      if auxiliary then [] else edgesFrom sort i ps := by
  induction ps generalizing i with
  | nil => cases auxiliary <;> rfl
  | cons p ps ih => cases auxiliary <;> simp [edgesFrom, hsort, ih]

/-- What is left are the edges that are not auxiliary, each to what is left of its child. -/
theorem edges_trimmed (p : Plan) :
    p.trimmed.edges =
      (p.edges.filter fun b => !b.1.isAuxiliary).map fun b => (b.1, b.2.trimmed) := by
  have hinput : ∀ (e : Edge) (c? : Option Plan), e.isAuxiliary = false →
      ((edgeTo e c?).filter fun b => !b.1.isAuxiliary).map (fun b => (b.1, b.2.trimmed)) =
        edgeTo e (c?.map trimmed) := by
    intro e c? he
    cases c? with
    | none => rfl
    | some c => simp [edgeTo, he]
  obtain ⟨kind, estimate, counts?, outer?, inner?, members, initPlans, subPlans⟩ := p
  have hmembers := filter_edgesFrom_auxiliary (fun i => (rfl : (Edge.member i).isAuxiliary = false))
    0 members
  have hinit := filter_edgesFrom_auxiliary (fun i => (rfl : (Edge.initPlan i).isAuxiliary = true))
    0 initPlans
  have hsub := filter_edgesFrom_auxiliary (fun i => (rfl : (Edge.subPlan i).isAuxiliary = true))
    0 subPlans
  simp only [trimmed, edges, List.filter_append, List.map_append, hinput .outer outer? rfl,
    hinput .inner inner? rfl, hmembers, hinit, hsub, trimmedOption_eq, edgesFrom_trimmed, edgesFrom,
    Bool.false_eq_true, if_true, if_false, List.append_nil]

theorem spine_trimmed (p : Plan) : p.trimmed.spine = p.spine.map trimmed := by
  induction p using induction_spine with
  | step p houter hinner =>
      rw [spine_eq, spine_eq p, outer?_trimmed, inner?_trimmed, List.map_cons, List.map_append]
      congr 2
      · cases hc : p.outer? with
        | none => rfl
        | some c => exact houter c hc
      · cases hc : p.inner? with
        | none => rfl
        | some c => exact hinner c hc

/-- No relation is collected from an auxiliary plan. -/
theorem collectRelations_trimmed (p : Plan) :
    p.trimmed.collectRelations .skipAuxiliary = p.collectRelations .skipAuxiliary := by
  apply IndexSet.ext_mem
  intro relation
  induction p using induction_edges with
  | step p ih =>
      rw [mem_collectRelations, mem_collectRelations, kind_trimmed, edges_trimmed]
      refine or_congr_right ⟨?_, ?_⟩
      · rintro ⟨_, htrimmed, hfollows, hrelation⟩
        obtain ⟨b, hkept, rfl⟩ := List.mem_map.1 htrimmed
        have hb := (List.mem_filter.1 hkept).1
        exact ⟨b, hb, hfollows, (ih b hb).1 hrelation⟩
      · rintro ⟨b, hb, hfollows, hrelation⟩
        refine ⟨_, List.mem_map.2 ⟨b, List.mem_filter.2 ⟨hb, hfollows⟩, rfl⟩, hfollows, ?_⟩
        exact (ih b hb).2 hrelation

theorem effectiveRoot_trimmed (p : Plan) : p.trimmed.effectiveRoot = p.effectiveRoot.trimmed := by
  rw [effectiveRoot, effectiveRoot, kind_trimmed, outer?_trimmed]
  cases p.kind with
  | gather invisible => cases invisible <;> cases p.outer? <;> rfl
  | _ => rfl

end Plan

namespace Advice

open Plan (BadIndex Names RangeTable JoinKind)

/-! The traversals that make directives. -/

section Trimmed

variable (names : Names) (table : RangeTable) (p : Plan)

theorem addNode_trimmed (d : Draft) :
    d.addNode names table p.trimmed = d.addNode names table p := by
  apply Draft.addNode_congr
  · exact Plan.kind_trimmed p
  · exact Plan.estimate_trimmed p
  · exact Plan.actual?_trimmed p
  · exact Plan.collectRelations_trimmed p

theorem addPlan_trimmed (d : Draft) :
    Draft.addPlan names table p.trimmed d = Draft.addPlan names table p d := by
  rw [Draft.addPlan_eq, Draft.addPlan_eq, Plan.spine_trimmed, List.foldlM_map]
  simp only [addNode_trimmed]

theorem joinOrder_trimmed : joinOrder names p.trimmed = joinOrder names p := by
  induction p using Plan.induction_edges with
  | step p ih =>
      have hspine : p.trimmed.edges.filter (fun b => b.1.isSpine) =
          (p.edges.filter fun b => b.1.isSpine).map fun b => (b.1, b.2.trimmed) := by
        rw [Plan.edges_trimmed, List.filter_map, List.filter_filter]
        congr 1
        refine List.filter_congr fun b _ => ?_
        obtain ⟨e, c⟩ := b
        cases e <;> rfl
      have hinputs : inputOrder names p.trimmed = inputOrder names p := by
        rw [inputOrder, inputOrder, hspine, List.mapM_map]
        exact congrArg (· >>= _) (mapM_congr_of_mem fun b hb => ih b (List.mem_filter.1 hb).1)
      rw [joinOrder_eq, joinOrder_eq, hinputs, Plan.kind_trimmed]

theorem directivesWith_trimmed :
    directivesWith names table p.trimmed = directivesWith names table p := by
  rw [directivesWith, directivesWith, addPlan_trimmed, leading, leading, joinOrder_trimmed]

end Trimmed

theorem directives_eq (table : RangeTable) (p : Plan) :
    directives table p =
      relationNames table p >>= fun names =>
        directivesWith names table p.trimmed.effectiveRoot := by
  simp only [directives, Plan.effectiveRoot_trimmed, directivesWith_trimmed]

/-- The marks of the entries are those of the spine. -/
theorem exists_written {table : RangeTable} {p : Plan} {d : Directives}
    (h : directives table p = .ok d) :
    ∃ entries : List Entry,
      entries.map Entry.mark = p.effectiveRoot.spine.filterMap Mark.ofNode? ∧ Written entries d := by
  obtain ⟨names, entries, -, hentries, hd, -⟩ := exists_entries h
  refine ⟨entries, ?_, hd⟩
  rw [Item.map_mark_entries hentries, List.map_filterMap]
  exact List.filterMap_congr fun q _ => Item.map_mark_ofNode? q

theorem ofNode?_trimmed (q : Plan) : Mark.ofNode? q.trimmed = Mark.ofNode? q := by
  rw [Mark.ofNode?, Mark.ofNode?, ← getD_actual?, ← getD_actual?, Plan.kind_trimmed, Plan.actual?_trimmed,
    Plan.estimate_trimmed]

theorem marks_trimmed (p : Plan) :
    p.trimmed.effectiveRoot.spine.filterMap Mark.ofNode? =
      p.effectiveRoot.spine.filterMap Mark.ofNode? := by
  rw [Plan.effectiveRoot_trimmed, Plan.spine_trimmed, List.filterMap_map]
  exact List.filterMap_congr fun q _ => ofNode?_trimmed q

theorem filterMap_mark {β : Type} (f : Mark → Option β) (entries : List Entry) :
    (entries.filterMap fun x => f x.mark) = (entries.map Entry.mark).filterMap f := by
  rw [List.filterMap_map]
  rfl

theorem length_joins (entries : List Entry) :
    (entries.filterMap Entry.join?).length =
      (entries.filterMap fun x => x.mark.joinKeyword?).length := by
  induction entries with
  | nil => rfl
  | cons x entries ih =>
      rw [List.filterMap_cons, List.filterMap_cons, Entry.join?]
      cases x.mark.joinKeyword? with
      | none => exact ih
      | some keyword => exact congrArg (· + 1) ih

/-- Of two plans that differ in their auxiliary plans alone, the directives are written from entries
that differ in the names alone, and with one set of relations in both plans not even in these. -/
theorem directives_blind {table : RangeTable} {p q : Plan} {d d' : Directives}
    (htrimmed : p.trimmed = q.trimmed) (hp : directives table p = .ok d)
    (hq : directives table q = .ok d') :
    d.totalDiff = d'.totalDiff ∧ d.joinCount = d'.joinCount ∧
      (∃ entries entries' : List Entry, Written entries d ∧ Written entries' d' ∧
        entries.map Entry.mark = p.effectiveRoot.spine.filterMap Mark.ofNode? ∧
        entries'.map Entry.mark = q.effectiveRoot.spine.filterMap Mark.ofNode? ∧
        (entries.filterMap fun x => x.mark.scanKeyword?) =
          entries'.filterMap (fun x => x.mark.scanKeyword?) ∧
        (entries.filterMap fun x => x.mark.joinKeyword?) =
          entries'.filterMap (fun x => x.mark.joinKeyword?) ∧
        (entries.filterMap fun x => x.mark.rowCount?) =
          entries'.filterMap fun x => x.mark.rowCount?) ∧
      (p.collectRelations .all = q.collectRelations .all → d = d') := by
  obtain ⟨entries, hmarks, hd⟩ := exists_written hp
  obtain ⟨entries', hmarks', hd'⟩ := exists_written hq
  have hsame : entries.map Entry.mark = entries'.map Entry.mark := by
    rw [hmarks, hmarks', ← marks_trimmed, htrimmed, marks_trimmed]
  have hfilter : ∀ {β : Type} (f : Mark → Option β),
      (entries.filterMap fun x => f x.mark) = entries'.filterMap fun x => f x.mark := by
    intro β f
    rw [filterMap_mark, hsame, ← filterMap_mark]
  refine ⟨?_, ?_, ⟨entries, entries', hd, hd', hmarks, hmarks', hfilter _, hfilter _, hfilter _⟩, ?_⟩
  · rw [hd.totalDiff, hd'.totalDiff]
    exact congrArg (List.foldl (· + ·) 0) (hfilter Mark.rowDiff?)
  · rw [hd.joinCount, hd'.joinCount, length_joins, length_joins, hfilter]
  · intro hrelations
    have hnames : relationNames table p = relationNames table q := by
      rw [relationNames, relationNames, hrelations]
    rw [directives_eq, hnames, htrimmed, ← directives_eq] at hp
    exact Except.ok.inj (hp.symm.trans hq)

/-- A misestimated join over a scan and an append, with sub plans at the scan and init plans at the
member, or with none. The auxiliary plans read a table that has the name of another one. -/
def appended (subPlans initPlans : List Plan) : Plan where
  kind := .gather true
  estimate := 20
  initPlans := initPlans
  outer? := some ((Plan.join .hashJoin { Plan.scan .seq 2 10 with subPlans }
    (Plan.unary "Hash" (Plan.composite .append [{ Plan.scan .index 3 5 with initPlans }] 5) 5)
    20).withActual 30)

def appendedTable : RangeTable := [.ofRelation "t", .aliased "orders" "t", .ofRelation "u"]

/-- With auxiliary plans at the root, at a scan and at a member. -/
def attended : Plan :=
  appended [Plan.scan .seq 1 4] [Plan.join .nestLoop (Plan.scan .seq 1 4) (Plan.scan .tid 1 1) 4]

theorem directives_blind_attended :
    (appended [] []).trimmed = attended.trimmed ∧
      ∃ d d', directives appendedTable (appended [] []) = .ok d ∧
        directives appendedTable attended = .ok d' ∧
        d.totalDiff = d'.totalDiff ∧ d.joinCount = d'.joinCount ∧ d.scan ≠ d'.scan := by
  have htrimmed : (appended [] []).trimmed = attended.trimmed := rfl
  have hscan : (directives appendedTable (appended [] [])).toOption.map Directives.scan =
      some "SEQSCAN(t) " := by decide +kernel
  have hscan' : (directives appendedTable attended).toOption.map Directives.scan =
      some "SEQSCAN(t_1) " := by decide +kernel
  refine ⟨htrimmed, ?_⟩
  cases hd : directives appendedTable (appended [] []) with
  | error bad => rw [hd] at hscan; cases hscan
  | ok d =>
      cases hd' : directives appendedTable attended with
      | error bad => rw [hd'] at hscan'; cases hscan'
      | ok d' =>
          rw [hd] at hscan
          rw [hd'] at hscan'
          obtain ⟨htotal, hcount, -⟩ := directives_blind htrimmed hd hd'
          refine ⟨d, d', rfl, rfl, htotal, hcount, ?_⟩
          rw [Option.some.inj hscan, Option.some.inj hscan']
          decide

end Advice

end PlanFeedback
