import PlanFeedback.Toml.Parser

/-!
Typed reading of TOML values. A record is a table with known keys or an array of its fields in order,
and every field has a default. What is passed over by its key still has to be readable.
-/
namespace PlanFeedback.Toml

abbrev Reader (α : Type) := Value → Option α

def boolean : Reader Bool
  | .bool b => some b
  | _ => none

def str : Reader String
  | .string s => some s
  | _ => none

/-- Natural numbers of 64 bits. -/
def size : Reader Nat
  | .integer n => if 0 ≤ n ∧ n < 0x10000000000000000 then some n.toNat else none
  | _ => none

mutual

/-- Integers fit 128 bits and other numbers are not beyond all finite ones. -/
def isReadable : Value → Bool
  | .integer n => -0x80000000000000000000000000000000 ≤ n && n < 0x100000000000000000000000000000000
  | .float numeral => numeral.finite?.isSome
  | .array items => areReadable items
  | .table _ entries => haveReadable entries
  | .rows tables => rowsReadable tables
  | _ => true

def areReadable : List Value → Bool
  | [] => true
  | v :: rest => isReadable v && areReadable rest

def haveReadable : List (String × Value) → Bool
  | [] => true
  | (_, v) :: rest => isReadable v && haveReadable rest

def rowsReadable : List (List (String × Value)) → Bool
  | [] => true
  | entries :: rest => haveReadable entries && rowsReadable rest

end

/-- The fields that a record gives. A moment gives none. -/
def fields? (names : List String) : Value → Option Entries
  | .table _ entries =>
    if entries.all fun e => names.contains e.1 || isReadable e.2 then some entries else none
  | .array items => some (names.zip items)
  | .rows tables => some (names.zip (tables.map (Value.table .header)))
  | .moment _ => some []
  | _ => none

def withDefault {α : Type} (fields : Entries) (name : String) (r : Reader α) (default : α) :
    Option α :=
  match fields.lookup name with
  | none => some default
  | some v => r v

end PlanFeedback.Toml
