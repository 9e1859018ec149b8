import PlanFeedback.Decimal.Text
import PlanFeedback.Json.Printer
import PlanFeedback.Json.Reader
import PlanFeedback.Store.Error
import PlanFeedback.Store.Record
import PlanFeedback.Time.Text

/-!
Records as bytes: compact JSON with the members in a fixed order. A number that is not finite is
written as null, which cannot be read back.
-/
namespace PlanFeedback.Store

open Json (Reader)
open Text (Bytes)
open Time (Instant)

def floatJson (x : Float) : Json :=
  match Decimal.recordNumeral? x with
  | some n => .number n
  | none => .null

def instantJson (i : Instant) : Json := .ofString i.text

def instantReader : Reader Instant := fun p v => (Json.str p v).bind Instant.ofText?

namespace HistoryRecord

def json (r : HistoryRecord) : Json :=
  .record [
    ("id", .ofNat r.id),
    ("norm_query_hash", .ofString r.queryKey),
    ("query_id", .ofNat r.queryId.toNat),
    ("plan_id", .ofNat r.planId.toNat),
    ("execution_time_ms", floatJson r.milliseconds),
    ("rows_hint", .ofString r.rows),
    ("scan_hint", .ofString r.scan),
    ("join_hint", .ofString r.join),
    ("lead_hint", .ofString r.leading),
    ("diff_of_joins", floatJson r.totalDiff),
    ("join_count", .ofNat r.joinCount),
    ("application_name", .ofString r.client),
    ("timestamp", instantJson r.timestamp)]

def fieldNames : List String :=
  ["id", "norm_query_hash", "query_id", "plan_id", "execution_time_ms", "rows_hint", "scan_hint",
    "join_hint", "lead_hint", "diff_of_joins", "join_count", "application_name", "timestamp"]

def reader : Reader HistoryRecord := fun p v => do
  let f ← Json.fields fieldNames p v
  return {
    id := ← f.withDefault "id" Json.size 0
    queryKey := ← f.required "norm_query_hash" Json.str
    queryId := ← f.required "query_id" Json.word
    planId := ← f.required "plan_id" Json.word
    milliseconds := ← f.required "execution_time_ms" Json.float
    rows := ← f.required "rows_hint" Json.str
    scan := ← f.required "scan_hint" Json.str
    join := ← f.required "join_hint" Json.str
    leading := ← f.required "lead_hint" Json.str
    totalDiff := ← f.required "diff_of_joins" Json.float
    joinCount := ← f.required "join_count" Json.size
    client := ← f.required "application_name" Json.str
    timestamp := ← f.required "timestamp" instantReader }

end HistoryRecord

/-- The two logs of query texts. -/
inductive TextLog where
  | normalized
  | raw
  deriving DecidableEq, Repr

/-- The member that holds the text of an entry. -/
def TextLog.textName : TextLog → String
  | .normalized => "norm_query_string"
  | .raw => "raw_query_string"

namespace TextRecord

def json (log : TextLog) (r : TextRecord) : Json :=
  .record [
    ("id", .ofNat r.id),
    ("norm_query_hash", .ofString r.queryKey),
    (log.textName, .ofString r.text),
    ("timestamp", instantJson r.timestamp)]

def reader (log : TextLog) : Reader TextRecord := fun p v => do
  let f ← Json.fields ["id", "norm_query_hash", log.textName, "timestamp"] p v
  return {
    id := ← f.required "id" Json.size
    queryKey := ← f.required "norm_query_hash" Json.str
    text := ← f.required log.textName Json.str
    timestamp := ← f.required "timestamp" instantReader }

end TextRecord

namespace HintRecord

def json (r : HintRecord) : Json :=
  .record [
    ("norm_query_string", .ofString r.normalized),
    ("application_name", .ofString r.client),
    ("hints", .ofString r.hints),
    ("updated_at", instantJson r.updated)]

def reader : Reader HintRecord := fun p v => do
  let f ← Json.fields ["norm_query_string", "application_name", "hints", "updated_at"] p v
  return {
    normalized := ← f.required "norm_query_string" Json.str
    client := ← f.required "application_name" Json.str
    hints := ← f.required "hints" Json.str
    updated := ← f.required "updated_at" instantReader }

end HintRecord

def encode (v : Json) : Bytes := Text.utf8 v.render

def unreadable (bytes : Bytes) : StorageError :=
  .serialization s!"unreadable record ends at line 1 column {bytes.length}"

/-- Reads a record from its bytes. What is passed over need not be text. -/
def decode {α : Type} (r : Reader α) (bytes : Bytes) : Except StorageError α :=
  match (Json.ofBytes? bytes).bind (r .top) with
  | some x => .ok x
  | none => .error (unreadable bytes)

end PlanFeedback.Store
