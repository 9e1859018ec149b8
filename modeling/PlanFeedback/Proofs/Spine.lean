import PlanFeedback.Plan.Walk

/-!
The spine of a plan: the nodes that are reached through outer and inner inputs alone, parents first.
A traversal that follows these inputs and hands a state on from node to node goes through the spine
from left to right.
-/
namespace PlanFeedback.Plan

mutual

/-- The node, then the spine of its outer input, then that of its inner input. -/
def spine : Plan → List Plan
  | ⟨kind, estimate, counts?, outer?, inner?, members, initPlans, subPlans⟩ =>
    ⟨kind, estimate, counts?, outer?, inner?, members, initPlans, subPlans⟩ ::
      (spineOption outer? ++ spineOption inner?)

def spineOption : Option Plan → List Plan
  | none => []
  | some p => p.spine

end

theorem filter_edgesFrom {sort : Nat → Edge} (hsort : ∀ i, (sort i).isSpine = false) (i : Nat)
    (ps : List Plan) : (edgesFrom sort i ps).filter (fun b => b.1.isSpine) = [] := by
  induction ps generalizing i with
  | nil => rfl
  | cons p ps ih => rw [edgesFrom, List.filter_cons_of_neg (by simp [hsort]), ih]

theorem filter_edges (p : Plan) :
    p.edges.filter (fun b => b.1.isSpine) = edgeTo .outer p.outer? ++ edgeTo .inner p.inner? := by
  have houter : (edgeTo .outer p.outer?).filter (fun b => b.1.isSpine) = edgeTo .outer p.outer? := by
    cases p.outer? <;> rfl
  have hinner : (edgeTo .inner p.inner?).filter (fun b => b.1.isSpine) = edgeTo .inner p.inner? := by
    cases p.inner? <;> rfl
  rw [edges, List.filter_append, List.filter_append, List.filter_append, List.filter_append, houter,
    hinner, filter_edgesFrom fun _ => rfl, filter_edgesFrom fun _ => rfl,
    filter_edgesFrom fun _ => rfl, List.append_nil, List.append_nil, List.append_nil]

theorem branches_spine {α : Type} (value : Plan → α) (p : Plan) :
    EdgeFilter.spine.branches (p.edges.map fun b => ⟨b.1, b.2, value b.2⟩) =
      (edgeTo .outer p.outer? ++ edgeTo .inner p.inner?).map fun b => ⟨b.1, b.2, value b.2⟩ := by
  rw [EdgeFilter.branches, List.filter_map, ← filter_edges]
  rfl

theorem spineOption_eq (p? : Option Plan) : spineOption p? = p?.elim [] spine := by
  cases p? <;> rfl

theorem spine_eq (p : Plan) :
    p.spine = p :: (p.outer?.elim [] spine ++ p.inner?.elim [] spine) := by
  cases p
  rw [spine, spineOption_eq, spineOption_eq]

/-- Induction along the spine: from the inputs of a node to the node. -/
theorem induction_spine {P : Plan → Prop}
    (step : ∀ p, (∀ c ∈ p.outer?, P c) → (∀ c ∈ p.inner?, P c) → P p) (p : Plan) : P p := by
  have hmem : ∀ (p : Plan) (e : Edge) (c : Plan), (e, c) ∈ edgeTo .outer p.outer? ++
      edgeTo .inner p.inner? → (e, c) ∈ p.edges := by
    intro p e c h
    rw [← filter_edges] at h
    exact (List.mem_filter.1 h).1
  induction p using induction_edges with
  | step p ih =>
      refine step p (fun c hc => ih (.outer, c) (hmem p _ _ ?_))
        fun c hc => ih (.inner, c) (hmem p _ _ ?_)
      · rw [Option.mem_def.1 hc]
        exact List.mem_append_left _ (List.mem_singleton_self _)
      · rw [Option.mem_def.1 hc]
        exact List.mem_append_right _ (List.mem_singleton_self _)

/-- The traversal that takes a node in, then its outer and then its inner input, and hands the state
on. -/
def along {σ ε : Type} (visit : σ → Plan → Except ε σ) (p : Plan) : σ → Except ε σ :=
  p.fold fun q bs s => do
    (EdgeFilter.spine.branches bs).foldlM (fun s b => b.value s) (← visit s q)

/-- The nodes of the spine are taken in one after the other. -/
theorem along_eq {σ ε : Type} (visit : σ → Plan → Except ε σ) (p : Plan) (s : σ) :
    p.along visit s = p.spine.foldlM visit s := by
  have hinput : ∀ (e : Edge) (c? : Option Plan) (s : σ),
      (∀ c ∈ c?, ∀ s, c.along visit s = c.spine.foldlM visit s) →
      ((edgeTo e c?).map fun b => (⟨b.1, b.2, b.2.along visit⟩ : Branch (σ → Except ε σ))).foldlM
        (fun s b => b.value s) s = (c?.elim [] spine).foldlM visit s := by
    intro e c? s hc
    cases c? with
    | none => rfl
    | some c => exact (bind_pure _).trans (hc c rfl s)
  induction p using induction_spine generalizing s with
  | step p houter hinner =>
      have hopen : p.along visit s = visit s p >>= (EdgeFilter.spine.branches
          (p.edges.map fun b => ⟨b.1, b.2, b.2.along visit⟩)).foldlM fun s b => b.value s := by
        rw [along, fold_eq]
        rfl
      rw [hopen, branches_spine (along visit), spine_eq, List.foldlM_cons]
      refine bind_congr fun s => ?_
      rw [List.map_append, List.foldlM_append, List.foldlM_append, hinput .outer p.outer? s houter]
      exact bind_congr fun s => hinput .inner p.inner? s hinner

end PlanFeedback.Plan
