import PlanFeedback.Plan.Basic

/-!
The edges from a node to its children, always in the order outer, inner, members, init plans, sub
plans, and recursion over them. Every traversal of a plan is an instance of `fold`, so that
`fold_eq`, which opens one node, and `induction_edges` are all that a proof needs.
-/
namespace PlanFeedback.Plan

inductive Edge where
  | outer
  | inner
  | member (index : Nat)
  | initPlan (index : Nat)
  | subPlan (index : Nat)
  deriving DecidableEq, Repr

namespace Edge

/-- An edge to a plan that runs beside the tree. -/
def isAuxiliary : Edge → Bool
  | .initPlan _ | .subPlan _ => true
  | .outer | .inner | .member _ => false

def isSpine : Edge → Bool
  | .outer | .inner => true
  | .member _ | .initPlan _ | .subPlan _ => false

/-- The name of the child's relationship to its parent in an explained plan. -/
def relationship : Edge → String
  | .outer => "Outer"
  | .inner => "Inner"
  | .member _ => "Member"
  | .initPlan _ => "InitPlan"
  | .subPlan _ => "SubPlan"

def index? : Edge → Option Nat
  | .outer | .inner => none
  | .member i | .initPlan i | .subPlan i => some i

end Edge

/-- Which edges a traversal follows. -/
inductive EdgeFilter where
  | spine
  | skipAuxiliary
  | all
  deriving DecidableEq, Repr

def EdgeFilter.follows : EdgeFilter → Edge → Bool
  | .spine, e => e.isSpine
  | .skipAuxiliary, e => !e.isAuxiliary
  | .all, _ => true

/-- The edges of one sort, counted from `i`. -/
def edgesFrom (sort : Nat → Edge) (i : Nat) : List Plan → List (Edge × Plan)
  | [] => []
  | p :: rest => (sort i, p) :: edgesFrom sort (i + 1) rest

def edgeTo (e : Edge) : Option Plan → List (Edge × Plan)
  | none => []
  | some p => [(e, p)]

def edges (p : Plan) : List (Edge × Plan) :=
  edgeTo .outer p.outer? ++ edgeTo .inner p.inner? ++ edgesFrom .member 0 p.members ++
    edgesFrom .initPlan 0 p.initPlans ++ edgesFrom .subPlan 0 p.subPlans

/-- An edge with its child and what a traversal made of the child. -/
structure Branch (α : Type) where
  edge : Edge
  child : Plan
  value : α

mutual

/-- Recursion over a plan: the value of a node from the values of its children. -/
def fold {α : Type} (f : Plan → List (Branch α) → α) : Plan → α
  | ⟨kind, estimate, counts?, outer?, inner?, members, initPlans, subPlans⟩ =>
    f ⟨kind, estimate, counts?, outer?, inner?, members, initPlans, subPlans⟩
      (foldOption f .outer outer? ++ foldOption f .inner inner? ++ foldList f .member 0 members ++
        foldList f .initPlan 0 initPlans ++ foldList f .subPlan 0 subPlans)

def foldOption {α : Type} (f : Plan → List (Branch α) → α) (e : Edge) :
    Option Plan → List (Branch α)
  | none => []
  | some p => [⟨e, p, fold f p⟩]

def foldList {α : Type} (f : Plan → List (Branch α) → α) (sort : Nat → Edge) (i : Nat) :
    List Plan → List (Branch α)
  | [] => []
  | p :: rest => ⟨sort i, p, fold f p⟩ :: foldList f sort (i + 1) rest

end

theorem foldOption_eq {α : Type} (f : Plan → List (Branch α) → α) (e : Edge) (p? : Option Plan) :
    foldOption f e p? = (edgeTo e p?).map fun b => ⟨b.1, b.2, b.2.fold f⟩ := by
  cases p? with
  | none => simp [foldOption, edgeTo]
  | some p => simp [foldOption, edgeTo]

theorem foldList_eq {α : Type} (f : Plan → List (Branch α) → α) (sort : Nat → Edge) (i : Nat)
    (ps : List Plan) :
    foldList f sort i ps = (edgesFrom sort i ps).map fun b => ⟨b.1, b.2, b.2.fold f⟩ := by
  induction ps generalizing i with
  | nil => simp [foldList, edgesFrom]
  | cons p rest ih => simp [foldList, edgesFrom, ih]

/-- A traversal opens one node at a time. -/
theorem fold_eq {α : Type} (f : Plan → List (Branch α) → α) (p : Plan) :
    p.fold f = f p (p.edges.map fun b => ⟨b.1, b.2, b.2.fold f⟩) := by
  cases p with
  | mk kind estimate counts? outer? inner? members initPlans subPlans =>
    simp only [fold, edges, foldOption_eq, foldList_eq, List.map_append]

theorem sizeOf_lt_of_mem_edgesFrom {sort : Nat → Edge} {i : Nat} {ps : List Plan}
    {b : Edge × Plan} (h : b ∈ edgesFrom sort i ps) : sizeOf b.2 < sizeOf ps := by
  induction ps generalizing i with
  | nil => simp [edgesFrom] at h
  | cons p rest ih =>
    rcases List.mem_cons.1 h with rfl | h
    · simp
      omega
    · have := ih h
      simp
      omega

theorem sizeOf_lt_of_mem_edgeTo {e : Edge} {p? : Option Plan} {b : Edge × Plan}
    (h : b ∈ edgeTo e p?) : sizeOf b.2 < sizeOf p? := by
  cases p? with
  | none => simp [edgeTo] at h
  | some p =>
    obtain rfl := List.mem_singleton.1 h
    simp

/-- A child is smaller than its parent. -/
theorem sizeOf_lt_of_mem_edges {p : Plan} {b : Edge × Plan} (h : b ∈ p.edges) :
    sizeOf b.2 < sizeOf p := by
  cases p with
  | mk kind estimate counts? outer? inner? members initPlans subPlans =>
    simp only [edges, List.mem_append] at h
    rcases h with (((h | h) | h) | h) | h
    · have := sizeOf_lt_of_mem_edgeTo h
      simp
      omega
    · have := sizeOf_lt_of_mem_edgeTo h
      simp
      omega
    · have := sizeOf_lt_of_mem_edgesFrom h
      simp
      omega
    · have := sizeOf_lt_of_mem_edgesFrom h
      simp
      omega
    · have := sizeOf_lt_of_mem_edgesFrom h
      simp
      omega

/-- Induction over a plan: from its children to the node. -/
theorem induction_edges {P : Plan → Prop} (step : ∀ p, (∀ b ∈ p.edges, P b.2) → P p) (p : Plan) :
    P p :=
  step p fun b _ => induction_edges step b.2
termination_by sizeOf p
decreasing_by exact sizeOf_lt_of_mem_edges ‹_›

end PlanFeedback.Plan
