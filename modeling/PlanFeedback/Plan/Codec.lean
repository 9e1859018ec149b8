import PlanFeedback.Json.Reader
import PlanFeedback.Plan.Basic
import PlanFeedback.Plan.RangeTable

/-!
Reading plans and range tables from JSON. The members of a node's kind stand among those of the
node.
-/
namespace PlanFeedback.Plan

open Json (Reader Place)

def ScanKind.names : List (String × ScanKind) :=
  [("seq", .seq), ("sample", .sample), ("index", .index), ("index_only", .indexOnly),
    ("bitmap_heap", .bitmapHeap), ("tid", .tid), ("subquery", .subquery),
    ("function", .function), ("table_func", .tableFunc), ("values", .values), ("cte", .cte),
    ("named_tuplestore", .namedTuplestore), ("work_table", .workTable)]

def JoinKind.names : List (String × JoinKind) :=
  [("nest_loop", .nestLoop), ("merge_join", .mergeJoin), ("hash_join", .hashJoin)]

def CompositeKind.names : List (String × CompositeKind) :=
  [("append", .append), ("merge_append", .mergeAppend), ("bitmap_and", .bitmapAnd),
    ("bitmap_or", .bitmapOr)]

/-- The names of the kinds of nodes, in the order of their numbers. -/
def Kind.sorts : List String :=
  ["scan", "bitmap_index_scan", "foreign_scan", "custom_scan", "join", "modify_table",
    "composite", "gather", "other"]

def Kind.reader : Reader Kind := fun p v => do
  let (sort, p, rest) ← Json.tagged "node" Kind.sorts p v
  match sort with
  | 0 =>
    let f ← Json.fields ["scan", "scanrelid"] p rest
    return .scan (← f.required "scan" (Json.choice ScanKind.names))
      (← f.required "scanrelid" Json.size)
  | 1 =>
    let f ← Json.fields ["index_name"] p rest
    return .bitmapIndexScan (← f.required "index_name" Json.str)
  | 2 =>
    let f ← Json.fields ["relids"] p rest
    return .foreignScan (← f.required "relids" (Json.list Json.size))
  | 3 =>
    let f ← Json.fields ["relids"] p rest
    return .customScan (← f.required "relids" (Json.list Json.size))
  | 4 =>
    let f ← Json.fields ["join"] p rest
    return .join (← f.required "join" (Json.choice JoinKind.names))
  | 5 =>
    let f ← Json.fields ["nominal_relation", "exclusion_relation"] p rest
    return .modifyTable (← f.required "nominal_relation" Json.size)
      (← f.withDefault "exclusion_relation" (Json.nullable Json.size) none)
  | 6 =>
    let f ← Json.fields ["composite"] p rest
    return .composite (← f.required "composite" (Json.choice CompositeKind.names))
  | 7 =>
    let f ← Json.fields ["invisible"] p rest
    return .gather (← f.withDefault "invisible" Json.boolean false)
  | _ =>
    let f ← Json.fields ["name"] p rest
    return .other (← f.required "name" Json.str)

def Counts.reader : Reader Counts := fun p v => do
  let f ← Json.fields ["ntuples", "nloops"] p v
  return { rows := ← f.required "ntuples" Json.float, loops := ← f.required "nloops" Json.float }

/-- The members of a node that do not belong to its kind. -/
def nodeFields : List String :=
  ["estimated_rows", "instrument", "outer", "inner", "members", "init_plans", "sub_plans"]

/-- The members of a node that its kind and unknown names share. -/
def kindMembers (members : List (Json.Text × Json)) : List (Json.Text × Json) :=
  members.filter fun m =>
    match m.1 with
    | some key => !nodeFields.contains key
    | none => true

def readerAt : (depth : Nat) → Json → Option Plan
  | depth + 1, .object members => do
    let p : Place := { depth := depth + 1 }
    let f ← Json.fields nodeFields p (.object members)
    let others := Json.object (kindMembers members)
    let kind ←
      if Json.fits p.depth others then Kind.reader { p with buffered := true } others else none
    let child : Reader Plan := fun _ w => readerAt depth w
    let item : Reader Plan := fun _ w => readerAt (depth - 1) w
    return {
      kind
      estimate := ← f.required "estimated_rows" Json.float
      counts? := ← f.withDefault "instrument" (Json.nullable Counts.reader) none
      outer? := ← f.withDefault "outer" (Json.nullable child) none
      inner? := ← f.withDefault "inner" (Json.nullable child) none
      members := ← f.withDefault "members" (Json.list item) []
      initPlans := ← f.withDefault "init_plans" (Json.list item) []
      subPlans := ← f.withDefault "sub_plans" (Json.list item) [] }
  | _, _ => none
termination_by depth => depth

def reader : Reader Plan := fun p v => readerAt p.depth v

def RangeEntry.reader : Reader RangeEntry := fun p v => do
  let f ← Json.fields ["refname", "alias", "relation"] p v
  return {
    reference := ← f.required "refname" Json.str
    alias? := ← f.withDefault "alias" (Json.nullable Json.str) none
    relation? := ← f.withDefault "relation" (Json.nullable Json.str) none }

def RangeTable.reader : Reader RangeTable := Json.list RangeEntry.reader

end PlanFeedback.Plan
