import PlanFeedback.Hash.Murmur
import PlanFeedback.Json.Printer
import PlanFeedback.Plan.Edge
import PlanFeedback.Plan.RangeTable

/-!
The shape of a plan: node types, the relations to the parents, targets and nesting, without any
count. Its document is compact JSON with the members of each object in the order of their names, and
the hash of the document is the id of the plan.
-/
namespace PlanFeedback.Advice

open Plan (BadIndex Kind RangeTable Edge)

inductive Target where
  | nothing
  | relation (name? : Option String) (reference : String)
  | relations (references : List String)
  | index (name : String)
  deriving DecidableEq, Repr

inductive Shape where
  | node (typeName : String) (relationship? : Option String) (target : Target)
      (children : List Shape)

def relationTarget (table : RangeTable) (relation : Nat) : Except BadIndex Target := do
  let entry ← table.get relation
  return .relation entry.relation? entry.reference

def foreignTarget (table : RangeTable) : List Nat → Except BadIndex Target
  | [relation] => relationTarget table relation
  | relations => do
    return .relations (← relations.mapM fun r => (table.get r).map Plan.RangeEntry.reference)

def target (table : RangeTable) : Kind → Except BadIndex Target
  | .scan _ relation => relationTarget table relation
  | .modifyTable relation _ => relationTarget table relation
  | .foreignScan relations => foreignTarget table relations
  | .customScan relations => foreignTarget table relations
  | .bitmapIndexScan name => return .index name
  | .join _ | .composite _ | .gather _ | .other _ => return .nothing

/-- The shape of a plan that hangs on an edge, or of a root. -/
def shapeAt (table : RangeTable) (p : Plan) : Option Edge → Except BadIndex Shape :=
  p.fold fun q bs edge? => do
    let target ← target table q.kind
    let children ← bs.mapM fun b => b.value (some b.edge)
    return .node q.kind.typeName (edge?.map Edge.relationship) target children

def shape (table : RangeTable) (p : Plan) : Except BadIndex Shape := shapeAt table p none

namespace Shape

def nameMember (name : String) : Option String → List (String × Json)
  | none => []
  | some s => [(name, .ofString s)]

mutual

/-- The members of the object of a shape, in the order of their names. -/
def members : Shape → List (String × Json)
  | .node typeName relationship? target children =>
    (match target with
      | .relation _ reference => [("Alias", .ofString reference)]
      | .index name => [("Index Name", .ofString name)]
      | _ => []) ++
    [("Node Type", .ofString typeName)] ++
    nameMember "Parent Relationship" relationship? ++
    (match children with
      | [] => []
      | _ => [("Plans", .array (documents children))]) ++
    (match target with
      | .relation name? _ => nameMember "Relation Name" name?
      | .relations references => [("Relations", .array (references.map .ofString))]
      | _ => [])

def documents : List Shape → List Json
  | [] => []
  | s :: rest => .record (members s) :: documents rest

end

def document (s : Shape) : Json := .record [("Plan", .record s.members)]

def id (s : Shape) : UInt32 := Hash.Murmur.textId s.document.render

end Shape

def planId (table : RangeTable) (p : Plan) : Except BadIndex UInt32 :=
  (shape table p).map Shape.id

end PlanFeedback.Advice
