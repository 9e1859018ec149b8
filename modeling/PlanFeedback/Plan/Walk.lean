import PlanFeedback.Plan.Edge
import PlanFeedback.Plan.IndexSet

/-!
Walks over a plan. A visit answers whether to stop, and a walk stops at the first visit that says
so; the pre-order list of edges is what a walk that never stops sees.
-/
namespace PlanFeedback.Plan

def EdgeFilter.branches {α : Type} (filter : EdgeFilter) (bs : List (Branch α)) :
    List (Branch α) :=
  bs.filter fun b => filter.follows b.edge

/-- Visits the children of a node until a visit answers that it wants to stop; answers whether one
did. -/
def walkChildren {m : Type → Type} [Monad m] (filter : EdgeFilter) (visit : Edge → Plan → m Bool)
    (p : Plan) : m Bool :=
  (p.edges.filter fun b => filter.follows b.1).anyM fun b => visit b.1 b.2

/-- A node of a walk: the edge that led to it and the plan below. -/
abbrev Visit := Edge × Plan

/-- Notes a visit and answers whether the record has reached the given length. -/
def record (stopAfter? : Option Nat) (v : Visit) : StateM (List Visit) Bool := do
  let seen ← get
  set (seen ++ [v])
  return stopAfter? == some (seen.length + 1)

/-- Walks the whole tree below a plan, parents first, until the record reaches a length. -/
def walkRecording (filter : EdgeFilter) (stopAfter? : Option Nat) (p : Plan) :
    StateM (List Visit) Bool :=
  p.fold fun _ bs => (filter.branches bs).anyM fun b => do
    if ← record stopAfter? (b.edge, b.child) then return true
    b.value

/-- The edges below a plan, each followed by those below its child. -/
def preorder (filter : EdgeFilter) (p : Plan) : List Visit :=
  p.fold fun _ bs => (filter.branches bs).flatMap fun b => (b.edge, b.child) :: b.value

/-- The relations that the nodes of a plan refer to, along the edges that a filter follows. -/
def collectRelations (filter : EdgeFilter) (p : Plan) : IndexSet :=
  .ofList (p.fold fun q bs => q.kind.relations ++ (filter.branches bs).flatMap Branch.value)

end PlanFeedback.Plan
