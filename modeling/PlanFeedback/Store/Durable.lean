import PlanFeedback.Store.Key
import PlanFeedback.Store.Repository
import PlanFeedback.Store.Table

/-!
The repository that outlives the program: five tables of encoded records. A table comes into being
when it is first written to. Each write is all or nothing.
-/
namespace PlanFeedback.Store

open Text (Bytes utf8)
open Time (Instant)

inductive TableName where
  | history
  | normalized
  | raw
  | hints
  | sequences
  deriving DecidableEq, Repr

namespace TableName

def text : TableName → String
  | .history => "plan_history"
  | .normalized => "norm_queries"
  | .raw => "raw_queries"
  | .hints => "hints"
  | .sequences => "sequences"

/-- All tables, in the order in which they are checked. -/
def all : List TableName := [.history, .normalized, .raw, .hints, .sequences]

def ofText? (s : String) : Option TableName := all.find? fun name => name.text == s

end TableName

def TextLog.table : TextLog → TableName
  | .normalized => .normalized
  | .raw => .raw

/-- The contents of a repository: the tables that exist. -/
structure Durable where
  table? : TableName → Option Table

namespace Durable

/-- No tables at all. -/
def blank : Durable := ⟨fun _ => none⟩

/-- A table that is about to be written to; it is empty if it did not exist. -/
def tableOrEmpty (d : Durable) (name : TableName) : Table := (d.table? name).getD .empty

def set (d : Durable) (name : TableName) (table : Table) : Durable :=
  ⟨fun other => if other = name then some table else d.table? other⟩

def put (d : Durable) (name : TableName) (key value : Bytes) : Durable :=
  d.set name ((d.tableOrEmpty name).insert key value)

/-- Makes the tables that do not exist. -/
def createSchema (d : Durable) : Durable := ⟨fun name => some (d.tableOrEmpty name)⟩

/-- No tables but empty ones. -/
def new : Durable := blank.createSchema

/-- A table that is about to be read. -/
def read (d : Durable) (name : TableName) : Except StorageError Table :=
  match d.table? name with
  | some table => .ok table
  | none => .error (.schemaMissing name.text)

def ensureSchema (d : Durable) : Except StorageError Unit :=
  TableName.all.forM fun name => (d.read name).map fun _ => ()

def load (d : Durable) (normalized client : String) : Except StorageError String := do
  let table ← d.read .hints
  match table.get? (hintKey normalized client) with
  | some bytes => (decode HintRecord.reader bytes).map HintRecord.hints
  | none => .ok ""

def replace (d : Durable) (now : Instant) (normalized client rows : String) :
    Except StorageError (String × Durable) := do
  let key := hintKey normalized client
  let prior ← match (d.tableOrEmpty .hints).get? key with
    | some bytes => (decode HintRecord.reader bytes).map HintRecord.hints
    | none => .ok ""
  let record : HintRecord := ⟨normalized, client, mergeRowHints prior rows, now⟩
  return (record.hints, d.put .hints key (encode record.json))

/-- The cell that holds the last id of a log. -/
def sequenceKey (log : TableName) : Bytes := utf8 log.text

/-- The last id of a log, zero where nothing has been counted. -/
def lastId (d : Durable) (log : TableName) : Except StorageError Nat :=
  match (d.tableOrEmpty .sequences).get? (sequenceKey log) with
  | none => .ok 0
  | some cell =>
    if cell.length = 8 then .ok (ofBigEndian cell)
    else .error (.serialization s!"序号 {log.text} 宽度错误: {cell.length} 字节")

def append (d : Durable) (log : TableName) (row : Nat → Row) :
    Except StorageError (Nat × Durable) := do
  let id := ((← d.lastId log) + 1) % 0x10000000000000000
  let counted := d.put .sequences (sequenceKey log) (wordBytes id)
  return (id, counted.put log (row id).1 (row id).2)

def appendHistory (d : Durable) (record : HistoryRecord) :
    Except StorageError (Nat × Durable) :=
  d.append .history fun id => (historyKey id, encode { record with id }.json)

def recordText (d : Durable) (log : TextLog) (now : Instant) (queryKey text : String) :
    Except StorageError (Nat × Durable) :=
  d.append log.table fun id =>
    (textKey queryKey id, encode (TextRecord.json log ⟨id, queryKey, text, now⟩))

def history (d : Durable) (queryKey? : Option String) :
    Except StorageError (List HistoryRecord) := do
  let table ← d.read .history
  let records ← table.values.mapM (decode HistoryRecord.reader)
  return records.filter fun r => queryKey?.all fun key => r.queryKey == key

def texts (d : Durable) (log : TextLog) (queryKey : String) :
    Except StorageError (List TextRecord) := do
  let table ← d.read log.table
  let (least, greatest) := textKeyRange queryKey
  (table.valuesBetween least greatest).mapM (decode (TextRecord.reader log))

def repository : Repository Durable where
  name := "RedbHintRepository"
  ensureSchema := ensureSchema
  load normalized client d := d.load normalized client
  replace now normalized client rows d := d.replace now normalized client rows
  appendHistory record d := d.appendHistory record
  recordText log now queryKey text d := d.recordText log now queryKey text
  history queryKey? d := d.history queryKey?
  texts log queryKey d := d.texts log queryKey

end Durable

end PlanFeedback.Store
