import PlanFeedback.Hash.Digest
import PlanFeedback.Hash.Murmur
import PlanFeedback.Query.Normal
import PlanFeedback.Text.Blank

/-!
The fingerprint of a query: its normal form, the digest that is its key in the repository, and a
short id that the layout of the text does not change.
-/
namespace PlanFeedback.Query

open Text

/-- The short id of a normalised query. -/
def queryId (normalized : String) : UInt32 :=
  Hash.Murmur.textId (collapse normalized)

structure Fingerprint where
  normalized : String
  digest : Hash.Digest
  queryId : UInt32
  deriving DecidableEq

namespace Fingerprint

def ofNormalized (normalized : String) : Fingerprint :=
  ⟨normalized, .ofText normalized, Query.queryId normalized⟩

/-- The key of the query in the repository. -/
def key (f : Fingerprint) : String := f.digest.toHex

end Fingerprint

namespace Source

/-- The bytes of the statement, if it starts and ends on character boundaries of the text. -/
def statement? (source : Source) : Option Bytes :=
  let text := utf8 source.text
  let stop := match source.length? with
    | some n => min (source.start + n) text.length
    | none => text.length
  slice? text source.start stop

/-- The locations inside the statement, counted from its start. -/
def relative (source : Source) (locations : List Location) : List Location :=
  (locations.filter fun l => source.start ≤ l.offset).map fun l =>
    { l with offset := l.offset - source.start }

/-- The fingerprint of the statement; none where nothing is known about literals. -/
def fingerprint? (source : Source) : Option Fingerprint := do
  let locations ← source.locations?
  let statement ← source.statement?
  return .ofNormalized (ofUtf8 (normalizeBytes statement (source.relative locations)))

end Source

end PlanFeedback.Query
