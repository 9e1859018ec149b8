import PlanFeedback.Plan.IndexSet

/-!
The range table of a query lists its relations, and the names under which directives speak of them.
-/
namespace PlanFeedback.Plan

/-- A relation of a query: the name it goes by, the alias written for it, and the table behind it. -/
structure RangeEntry where
  reference : String
  alias? : Option String := none
  relation? : Option String := none
  deriving DecidableEq, Repr

namespace RangeEntry

/-- A table under its own name. -/
def ofRelation (name : String) : RangeEntry := { reference := name, relation? := some name }

/-- A table under an alias. -/
def aliased (relation name : String) : RangeEntry :=
  { reference := name, alias? := some name, relation? := some relation }

end RangeEntry

abbrev RangeTable := List RangeEntry

/-- A plan refers to a relation that the range table of the given length does not have. -/
structure BadIndex where
  index : Nat
  length : Nat
  deriving DecidableEq, Repr

def BadIndex.message (e : BadIndex) : String :=
  s!"无效的范围表索引: {e.index}（范围表长度 {e.length}）"

/-- The item with an index that counts from one. -/
def itemAt {α : Type} (items : List α) (index : Nat) : Except BadIndex α :=
  match index with
  | 0 => .error ⟨0, items.length⟩
  | i + 1 =>
    match items[i]? with
    | some item => .ok item
    | none => .error ⟨i + 1, items.length⟩

def RangeTable.get (table : RangeTable) (index : Nat) : Except BadIndex RangeEntry :=
  itemAt table index

/-- The names of the relations of a range table, in its order. -/
structure Names where
  toList : List String
  deriving DecidableEq, Repr

namespace Names

/-- The candidates for a name: the base, then the base with the suffixes one, two and so on. The
suffix is a natural number without a bound. The program counts it in 32 bits with a sign, which
differs only where the base and all its suffixes up to `2 ^ 31 - 1` are taken. -/
def candidate (base : String) : Nat → String
  | 0 => base
  | k + 1 => s!"{base}_{k + 1}"

/-- The first candidate that is not taken. One more candidate than there are taken names is
enough, so that the suffix is at most the number of taken names. -/
def fresh (taken : List String) (base : String) : String :=
  (((List.range (taken.length + 1)).map (candidate base)).find? fun name =>
    !taken.contains name).getD base

/-- Names the entries from the one with index `index` on: a used entry gets a fresh name made of its
alias or its reference name, any other keeps its reference name. -/
def assignFrom (used : IndexSet) (taken : List String) (index : Nat) : RangeTable → List String
  | [] => []
  | entry :: rest =>
    if used.contains index then
      let name := fresh taken (entry.alias?.getD entry.reference)
      name :: assignFrom used (name :: taken) (index + 1) rest
    else entry.reference :: assignFrom used taken (index + 1) rest

/-- Names the relations of a table. The error tells the least used index that the table lacks. -/
def assign (table : RangeTable) (used : IndexSet) : Except BadIndex Names :=
  match used.toList.find? fun i => i = 0 ∨ table.length < i with
  | some bad => .error ⟨bad, table.length⟩
  | none => .ok ⟨assignFrom used [] 1 table⟩

def get (names : Names) (index : Nat) : Except BadIndex String :=
  itemAt names.toList index

/-- The names of a set of relations in the order of the table, with spaces between. -/
def list (names : Names) (relations : IndexSet) : Except BadIndex String := do
  return " ".intercalate (← relations.toList.mapM names.get)

end Names

end PlanFeedback.Plan
