import PlanFeedback.Advice.Directives

/-!
What the drafting of directives tells a curious user: each node with its depth, and the row counts
of each join.
-/
namespace PlanFeedback.Advice

open Plan (Names BadIndex EdgeFilter)

inductive Note where
  | visited (depth : Nat) (typeName : String)
  | joined (relations : String) (estimate actual : Float)

namespace Note

def text : Note → String
  | .visited depth typeName => String.ofList (List.replicate (2 * depth) ' ') ++ typeName
  | .joined relations estimate actual =>
    "join (" ++ relations ++ "): estimated=" ++ Decimal.plain estimate ++ " actual=" ++
      Decimal.plain actual ++ " diff=" ++ Decimal.plain (actual - estimate)

end Note

def nodeNotes (names : Names) (p : Plan) (depth : Nat) : Except BadIndex (List Note) := do
  let visited := Note.visited depth p.kind.typeName
  if p.kind.isJoin then
    let relations ← names.list (p.collectRelations .skipAuxiliary)
    return [visited, .joined relations p.estimate (p.actual?.getD p.estimate)]
  else return [visited]

/-- The notes on a plan at a depth, in the order of the drafting. -/
def notesAt (names : Names) (p : Plan) : (depth : Nat) → Except BadIndex (List Note) :=
  p.fold fun q bs depth => do
    let own ← nodeNotes names q depth
    let below ← (EdgeFilter.spine.branches bs).mapM fun b => b.value (depth + 1)
    return own ++ below.flatten

def notes (names : Names) (p : Plan) : Except BadIndex (List Note) := notesAt names p 0

end PlanFeedback.Advice
