import PlanFeedback.Advice.Leading
import PlanFeedback.Advice.Method
import PlanFeedback.Decimal.Text
import PlanFeedback.Plan.Identifier

/-!
Directives that reproduce an executed plan and correct its row estimates. One pass over the outer
and inner inputs drafts the scan, join and row directives, and a second one the join order.
-/
namespace PlanFeedback.Advice

open Plan (Kind Names BadIndex EdgeFilter IndexSet RangeTable ScanKind JoinKind)

/-- The directives of a plan, the sum of the absolute row errors of its joins and their number. -/
structure Directives where
  scan : String
  join : String
  leading : String
  rows : String
  totalDiff : Float
  joinCount : Nat

/-- Scan, join and join order directives on lines of their own. -/
def Directives.hints (d : Directives) : String :=
  d.scan ++ "\n" ++ d.join ++ "\n" ++ d.leading

/-- The number of scan directives on a line. -/
def scansPerLine : Nat := 5

structure Draft where
  scan : String := ""
  scanCount : Nat := 0
  join : String := ""
  joinCount : Nat := 0
  rows : String := ""
  rowsCount : Nat := 0
  totalDiff : Float := 0

namespace Draft

/-- The break before the entry with the given number, counted from zero: a line of scans is full. -/
def scanBreak (count : Nat) : String :=
  if 0 < count ∧ count % scansPerLine = 0 then "\n" else ""

/-- Joins and row counts stand on lines of their own. -/
def lineBreak (count : Nat) : String := if 0 < count then "\n" else ""

def scanEntry (method : ScanMethod) (name : String) : String :=
  method.keyword ++ "(" ++ Plan.quoteIdentifier name ++ ") "

def joinEntry (kind : JoinKind) (relations : String) : String :=
  joinKeyword kind ++ "(" ++ relations ++ ") "

def rowsEntry (relations : String) (actual : Float) : String :=
  "ROWS(" ++ relations ++ " #" ++ Decimal.fixed 0 actual ++ ") "

/-- Takes a scan in if it has a method. -/
def addScan (d : Draft) (names : Names) (kind : ScanKind) (relation : Nat) :
    Except BadIndex Draft := do
  let name ← names.get relation
  match ScanMethod.ofKind? kind with
  | none => return d
  | some method =>
    return { d with
      scan := d.scan ++ scanBreak d.scanCount ++ scanEntry method name
      scanCount := d.scanCount + 1 }

/-- Takes a row count in if it differs from the estimate. -/
def addRows (d : Draft) (relations : String) (estimate actual : Float) : Draft :=
  if estimate != actual then
    { d with
      rows := d.rows ++ lineBreak d.rowsCount ++ rowsEntry relations actual
      rowsCount := d.rowsCount + 1 }
  else d

def addJoin (d : Draft) (names : Names) (p : Plan) (kind : JoinKind) : Except BadIndex Draft := do
  let relations ← names.list (p.collectRelations .skipAuxiliary)
  let actual := p.actual?.getD p.estimate
  let d := { d with
    join := d.join ++ lineBreak d.joinCount ++ joinEntry kind relations
    joinCount := d.joinCount + 1
    totalDiff := d.totalDiff + (actual - p.estimate).abs }
  return d.addRows relations p.estimate actual

/-- Takes a single node in. A foreign or custom scan of one relation must name one of the table. -/
def addNode (d : Draft) (names : Names) (table : RangeTable) (p : Plan) : Except BadIndex Draft :=
  match p.kind with
  | .scan kind relation => d.addScan names kind relation
  | .join kind => d.addJoin names p kind
  | .foreignScan [relation] | .customScan [relation] => (table.get relation).map fun _ => d
  | _ => .ok d

/-- Takes a plan in: the node, its outer input, its inner input. -/
def addPlan (names : Names) (table : RangeTable) (p : Plan) : Draft → Except BadIndex Draft :=
  p.fold fun q bs d => do
    (EdgeFilter.spine.branches bs).foldlM (fun d b => b.value d) (← d.addNode names table q)

def finish (d : Draft) (leading : String) : Directives :=
  ⟨d.scan, d.join, leading, d.rows, d.totalDiff, d.joinCount⟩

end Draft

def directivesWith (names : Names) (table : RangeTable) (p : Plan) : Except BadIndex Directives := do
  let draft ← Draft.addPlan names table p {}
  return draft.finish (← leading names p)

def relationNames (table : RangeTable) (p : Plan) : Except BadIndex Names :=
  Names.assign table (p.collectRelations .all)

def directives (table : RangeTable) (p : Plan) : Except BadIndex Directives := do
  directivesWith (← relationNames table p) table p.effectiveRoot

end PlanFeedback.Advice
