import PlanFeedback.Decimal.Numeral

/-!
The values of TOML and the tables that its keys and headers build. A table remembers how it came
about, because only some tables may be added to later.
-/
namespace PlanFeedback.Toml

/-- How a table came about: by its own header, by a longer header, by a dotted key, or in braces. -/
inductive Origin where
  | header
  | implied
  | dotted
  | braces
  deriving DecidableEq, Repr

inductive Value where
  | string (s : String)
  | integer (n : Int)
  | float (numeral : Decimal.Numeral)
  /-- An infinity or no number. -/
  | special
  | bool (b : Bool)
  /-- A date, a time of the day or both, as written. -/
  | moment (text : List Char)
  | array (items : List Value)
  | table (origin : Origin) (entries : List (String × Value))
  /-- An array of tables, one for each of its headers. -/
  | rows (tables : List (List (String × Value)))

abbrev Entries := List (String × Value)

/-- Gives a key a value, in place if the key is there. -/
def put (key : String) (v : Value) : Entries → Entries
  | [] => [(key, v)]
  | (other, u) :: rest => if other = key then (key, v) :: rest else (other, u) :: put key v rest

/-- The entries of a table, or of the last of several. -/
def Value.entries? : Value → Option Entries
  | .table _ entries => some entries
  | .rows tables => tables.getLast?
  | _ => none

/-- The same value with other entries in the table that `entries?` gives. -/
def Value.withEntries (entries : Entries) : Value → Value
  | .table origin _ => .table origin entries
  | .rows tables => .rows (tables.dropLast ++ [entries])
  | v => v

/-- A header may lead through every table that is not in braces. -/
def Value.admitsHeader : Value → Bool
  | .table origin _ => origin != .braces
  | .rows _ => true
  | _ => false

/-- A dotted key may lead through tables that have no header of their own; the table that takes the
last part must come from a dotted key itself. -/
def Value.admitsKey (isLast : Bool) : Value → Bool
  | .table origin _ => origin == .dotted || origin == .implied && !isLast
  | .rows _ => !isLast
  | _ => false

/-- Gives a dotted key a value. No key is given a value twice. -/
def assign? (v : Value) : List String → Entries → Option Entries
  | [], _ => none
  | [key], entries => if (entries.lookup key).isSome then none else some (entries ++ [(key, v)])
  | key :: next :: rest, entries =>
    match entries.lookup key with
    | none =>
      (assign? v (next :: rest) []).map fun inner => put key (.table .dotted inner) entries
    | some u =>
      if u.admitsKey rest.isEmpty then do
        let inner ← assign? v (next :: rest) (← u.entries?)
        return put key (u.withEntries inner) entries
      else none

/-- Opens the table that a header names. It may be there only as implied by longer headers. -/
def openTable? : List String → Entries → Option Entries
  | [], _ => none
  | [key], entries =>
    match entries.lookup key with
    | none => some (put key (.table .header []) entries)
    | some (.table .implied inner) => some (put key (.table .header inner) entries)
    | some _ => none
  | key :: next :: rest, entries =>
    match entries.lookup key with
    | none =>
      (openTable? (next :: rest) []).map fun inner => put key (.table .implied inner) entries
    | some u =>
      if u.admitsHeader then do
        let inner ← openTable? (next :: rest) (← u.entries?)
        return put key (u.withEntries inner) entries
      else none

/-- Opens one more table of the array that a header names. -/
def openRow? : List String → Entries → Option Entries
  | [], _ => none
  | [key], entries =>
    match entries.lookup key with
    | none => some (put key (.rows [[]]) entries)
    | some (.rows tables) => some (put key (.rows (tables ++ [[]])) entries)
    | some _ => none
  | key :: next :: rest, entries =>
    match entries.lookup key with
    | none =>
      (openRow? (next :: rest) []).map fun inner => put key (.table .implied inner) entries
    | some u =>
      if u.admitsHeader then do
        let inner ← openRow? (next :: rest) (← u.entries?)
        return put key (u.withEntries inner) entries
      else none

def within? (change : Entries → Option Entries) : List String → Entries → Option Entries
  | [], entries => change entries
  | key :: rest, entries => do
    let u ← entries.lookup key
    let inner ← within? change rest (← u.entries?)
    return put key (u.withEntries inner) entries

inductive Line where
  | table (path : List String)
  | row (path : List String)
  | entry (path : List String) (v : Value)

/-- A document so far: all entries and the path of the open table. -/
structure Document where
  root : Entries := []
  path : List String := []

def Document.add? (d : Document) : Line → Option Document
  | .table path => (openTable? path d.root).map fun root => { root, path }
  | .row path => (openRow? path d.root).map fun root => { root, path }
  | .entry key v => (within? (assign? v key) d.path d.root).map fun root => { d with root }

def ofLines? (lines : List Line) : Option Entries :=
  (lines.foldlM Document.add? {}).map Document.root

end PlanFeedback.Toml
