/-!
Executed plan trees. A node has a kind, an estimate of its rows, the run-time counts if it was
instrumented, and children of five sorts: an outer and an inner input, members, and the two sorts of
auxiliary plans. Relations are named by their index in the range table, counted from one.
-/
namespace PlanFeedback

namespace Plan

/-- Scans of a single relation. -/
inductive ScanKind where
  | seq
  | sample
  | index
  | indexOnly
  | bitmapHeap
  | tid
  | subquery
  | function
  | tableFunc
  | values
  | cte
  | namedTuplestore
  | workTable
  deriving DecidableEq, Repr

def ScanKind.typeName : ScanKind → String
  | .seq => "Seq Scan"
  | .sample => "Sample Scan"
  | .index => "Index Scan"
  | .indexOnly => "Index Only Scan"
  | .bitmapHeap => "Bitmap Heap Scan"
  | .tid => "Tid Scan"
  | .subquery => "Subquery Scan"
  | .function => "Function Scan"
  | .tableFunc => "Table Function Scan"
  | .values => "Values Scan"
  | .cte => "CTE Scan"
  | .namedTuplestore => "Named Tuplestore Scan"
  | .workTable => "WorkTable Scan"

inductive JoinKind where
  | nestLoop
  | mergeJoin
  | hashJoin
  deriving DecidableEq, Repr

def JoinKind.typeName : JoinKind → String
  | .nestLoop => "Nested Loop"
  | .mergeJoin => "Merge Join"
  | .hashJoin => "Hash Join"

/-- Operators over a list of members. -/
inductive CompositeKind where
  | append
  | mergeAppend
  | bitmapAnd
  | bitmapOr
  deriving DecidableEq, Repr

def CompositeKind.typeName : CompositeKind → String
  | .append => "Append"
  | .mergeAppend => "Merge Append"
  | .bitmapAnd => "BitmapAnd"
  | .bitmapOr => "BitmapOr"

inductive Kind where
  | scan (method : ScanKind) (relation : Nat)
  /-- The input of a bitmap heap scan, which reads an index and no relation. -/
  | bitmapIndexScan (index : String)
  | foreignScan (relations : List Nat)
  | customScan (relations : List Nat)
  | join (method : JoinKind)
  | modifyTable (target : Nat) (exclusion? : Option Nat)
  | composite (operator : CompositeKind)
  /-- Collects the rows of parallel workers; an invisible one is not shown to the user. -/
  | gather (invisible : Bool)
  /-- Any other operator, such as a hash, a sort or a limit. -/
  | other (name : String)
  deriving DecidableEq, Repr

namespace Kind

/-- The name that an explained plan shows. -/
def typeName : Kind → String
  | .scan method _ => method.typeName
  | .bitmapIndexScan _ => "Bitmap Index Scan"
  | .foreignScan _ => "Foreign Scan"
  | .customScan _ => "Custom Scan"
  | .join method => method.typeName
  | .modifyTable _ _ => "ModifyTable"
  | .composite operator => operator.typeName
  | .gather _ => "Gather"
  | .other name => name

def isJoin : Kind → Bool
  | .join _ => true
  | _ => false

/-- The relations that a node of this kind refers to. -/
def relations : Kind → List Nat
  | .scan _ relation => [relation]
  | .foreignScan relations => relations
  | .customScan relations => relations
  | .modifyTable target exclusion? => target :: exclusion?.toList
  | .bitmapIndexScan _ | .join _ | .composite _ | .gather _ | .other _ => []

end Kind

/-- Run-time counts of a node: the rows of all loops together, and the loops. -/
structure Counts where
  rows : Float
  loops : Float

end Plan

structure Plan where
  kind : Plan.Kind
  estimate : Float
  counts? : Option Plan.Counts := none
  outer? : Option Plan := none
  inner? : Option Plan := none
  members : List Plan := []
  initPlans : List Plan := []
  subPlans : List Plan := []

namespace Plan

/-- A node without children and without counts. -/
def leaf (kind : Kind) (estimate : Float) : Plan := { kind, estimate }

def scan (method : ScanKind) (relation : Nat) (estimate : Float) : Plan :=
  leaf (.scan method relation) estimate

def join (method : JoinKind) (outer inner : Plan) (estimate : Float) : Plan :=
  { kind := .join method, estimate, outer? := some outer, inner? := some inner }

def unary (name : String) (input : Plan) (estimate : Float) : Plan :=
  { kind := .other name, estimate, outer? := some input }

def composite (operator : CompositeKind) (members : List Plan) (estimate : Float) : Plan :=
  { kind := .composite operator, estimate, members }

def withCounts (p : Plan) (rows loops : Float) : Plan :=
  { p with counts? := some ⟨rows, loops⟩ }

/-- The rows of a single loop. -/
def withActual (p : Plan) (rows : Float) : Plan := p.withCounts rows 1

def withSubPlan (p sub : Plan) : Plan := { p with subPlans := p.subPlans ++ [sub] }

def withInitPlan (p init : Plan) : Plan := { p with initPlans := p.initPlans ++ [init] }

/-- The rows of a loop as counted; none if the node was not instrumented or never ran. -/
def actual? (p : Plan) : Option Float :=
  match p.counts? with
  | some c => if 0 < c.loops then some (c.rows / c.loops) else none
  | none => none

/-- Beneath an invisible gather at the root, the plan that the user sees. -/
def effectiveRoot (p : Plan) : Plan :=
  match p.kind, p.outer? with
  | .gather true, some child => child
  | _, _ => p

end Plan

end PlanFeedback
