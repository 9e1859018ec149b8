import PlanFeedback.Store.Durable

/-!
A repository as the bytes of one file: a mark that no text starts with, and then for each table a
byte that tells whether it exists, the number of its rows, and its rows. Keys and values stand behind
their length.
-/
namespace PlanFeedback.Store.Snapshot

open Text (Bytes)

/-- What the file of a repository starts with. -/
def mark : Bytes := [0xFF, 0x50, 0x46, 0x01]

def sizedText (bytes : Bytes) : Bytes := wordBytes bytes.length ++ bytes

def rowText (row : Row) : Bytes := sizedText row.1 ++ sizedText row.2

def tableText : Option Table → Bytes
  | none => [0]
  | some table => 1 :: wordBytes table.rows.length ++ table.rows.flatMap rowText

def encode (d : Durable) : Bytes :=
  mark ++ TableName.all.flatMap fun name => tableText (d.table? name)

/-! Each reader gives what it read and the rest. -/

/-- A number of 64 bits. -/
def number? (bytes : Bytes) : Option (Nat × Bytes) :=
  if 8 ≤ bytes.length then some (ofBigEndian (bytes.take 8), bytes.drop 8) else none

def sized? (bytes : Bytes) : Option (Bytes × Bytes) := do
  let (length, rest) ← number? bytes
  if length ≤ rest.length then some (rest.take length, rest.drop length) else none

def rows? : Nat → Bytes → Option (List Row × Bytes)
  | 0, bytes => some ([], bytes)
  | n + 1, bytes => do
    let (key, bytes) ← sized? bytes
    let (value, bytes) ← sized? bytes
    let (rows, rest) ← rows? n bytes
    return ((key, value) :: rows, rest)

def table? : Bytes → Option (Option Table × Bytes)
  | 0 :: rest => some (none, rest)
  | 1 :: rest => do
    let (count, rest) ← number? rest
    let (rows, rest) ← rows? count rest
    return (some (rows.foldl (fun t row => t.insert row.1 row.2) .empty), rest)
  | _ => none

def tables? (d : Durable) : List TableName → Bytes → Option Durable
  | [], rest => if rest = [] then some d else none
  | name :: names, bytes => do
    let (read?, rest) ← table? bytes
    tables? (match read? with
      | none => d
      | some table => d.set name table) names rest

/-- Reads a repository. An empty file is a repository without tables. -/
def decode? (bytes : Bytes) : Option Durable :=
  if bytes = [] then some .blank
  else if bytes.take mark.length = mark then tables? .blank TableName.all (bytes.drop mark.length)
  else none

end PlanFeedback.Store.Snapshot
