import PlanFeedback.Json.Reader
import PlanFeedback.Query.Statement

/-!
Reading sources, statements and fingerprints from JSON.
-/
namespace PlanFeedback.Query

open Json (Reader Place)

def Location.reader : Reader Location := fun p v => do
  let f ← Json.fields ["offset", "len"] p v
  return {
    offset := ← f.required "offset" Json.size
    length? := ← f.withDefault "len" (Json.nullable Json.size) none }

def Source.reader : Reader Source := fun p v => do
  let f ← Json.fields ["text", "stmt_location", "stmt_len", "literal_locations"] p v
  return {
    text := ← f.required "text" Json.str
    start := ← f.withDefault "stmt_location" Json.size 0
    length? := ← f.withDefault "stmt_len" (Json.nullable Json.size) none
    locations? :=
      ← f.withDefault "literal_locations" (Json.nullable (Json.list Location.reader)) none }

/-- The names of the sorts of statements, in the order of their numbers. -/
def Statement.sorts : List String :=
  ["select", "insert", "update", "delete", "merge", "explain", "declare_cursor",
    "create_table_as", "execute", "utility"]

def Command.ofSort? : Nat → Option Command
  | 0 => some .select
  | 1 => some .insert
  | 2 => some .update
  | 3 => some .delete
  | 4 => some .merge
  | _ => none

/-- Reads a statement at a nesting depth. The fields of a prepared statement are its name, its
source and its statement. -/
def Statement.readerAt (buffered : Bool) : (depth : Nat) → Json → Option Statement
  | 0, _ => none
  | depth + 1, v => do
    let (sort, p, rest) ← Json.tagged "statement" Statement.sorts ⟨depth + 1, buffered⟩ v
    let inner : Reader Statement := fun _ w => Statement.readerAt true depth w
    match Command.ofSort? sort, sort with
    | some command, _ =>
      let _ ← Json.fields [] p rest
      return .plain command
    | none, 5 =>
      let f ← Json.fields ["analyze", "target"] p rest
      return .explain (← f.withDefault "analyze" Json.boolean false) (← f.required "target" inner)
    | none, 6 =>
      let f ← Json.fields ["target"] p rest
      return .declareCursor (← f.required "target" inner)
    | none, 7 =>
      let f ← Json.fields ["target"] p rest
      return .createTableAs (← f.required "target" inner)
    | none, 8 =>
      let f ← Json.fields ["prepared"] p rest
      let prepared : Reader Statement := fun q w => do
        let g ← Json.fields ["name", "source", "statement"] q w
        let nested : Reader Statement := fun _ x => Statement.readerAt true (depth - 1) x
        return .execute (← g.required "name" Json.str) (← g.required "source" Source.reader)
          (← g.required "statement" nested)
      return (← f.withDefault "prepared" (Json.nullable prepared) none).getD .executeUnknown
    | none, _ =>
      let f ← Json.fields ["command"] p rest
      return .utility (← f.required "command" Json.str)
termination_by depth => depth

def Statement.reader : Reader Statement := fun p v => Statement.readerAt p.buffered p.depth v

def digestReader : Reader Hash.Digest := fun p v =>
  (Json.list Json.byte p v).bind Hash.Digest.ofBytes?

def Fingerprint.reader : Reader Fingerprint := fun p v => do
  let f ← Json.fields ["normalized", "digest", "query_id"] p v
  return {
    normalized := ← f.required "normalized" Json.str
    digest := ← f.required "digest" digestReader
    queryId := ← f.required "query_id" Json.word }

end PlanFeedback.Query
