import PlanFeedback.Query.Literal
import PlanFeedback.Query.Source

/-!
The normal form of a query: each literal is replaced by one question mark. Locations that lie
outside the text, overlap an earlier one or cut a character are passed over.
-/
namespace PlanFeedback.Query

open Text

/-- A stretch of a text, from a byte up to another. -/
structure Stretch where
  start : Nat
  stop : Nat
  deriving DecidableEq, Repr

/-- The stretch that a location names in a text, cut at the end of the text. -/
def Location.stretch? (text : Bytes) (location : Location) : Option Stretch :=
  if location.offset < text.length then
    (location.length?.or (literalLength? (text.drop location.offset))).map fun n =>
      ⟨location.offset, min (location.offset + n) text.length⟩
  else none

/-- Earlier starts come first, and of stretches with one start the shorter ones. -/
def Stretch.precedes (a b : Stretch) : Bool :=
  a.start < b.start || (a.start == b.start && a.stop ≤ b.stop)

/-- Of neighbours with one start keeps the first. -/
def dropRepeats : List Stretch → List Stretch
  | [] => []
  | a :: rest =>
    match dropRepeats rest with
    | [] => [a]
    | b :: more => if a.start = b.start then a :: more else a :: b :: more

/-- The stretches that can be replaced, in order and apart; the text before `last` is used up. -/
def chooseFrom (text : Bytes) (last : Nat) : List Stretch → List Stretch
  | [] => []
  | s :: rest =>
    if last ≤ s.start ∧ s.start < s.stop ∧ isBoundary text s.start ∧ isBoundary text s.stop then
      s :: chooseFrom text s.stop rest
    else chooseFrom text last rest

/-- The stretches of a text that its normal form replaces. -/
def replacedStretches (text : Bytes) (locations : List Location) : List Stretch :=
  let stretches := locations.filterMap (Location.stretch? text)
  chooseFrom text 0 (dropRepeats (stretches.mergeSort Stretch.precedes))

def placeholder : UInt8 := 0x3F

/-- The text from `last` on with one placeholder for each stretch. -/
def substituteFrom (text : Bytes) (last : Nat) : List Stretch → Bytes
  | [] => text.drop last
  | s :: rest => slice text last s.start ++ placeholder :: substituteFrom text s.stop rest

def normalizeBytes (text : Bytes) (locations : List Location) : Bytes :=
  substituteFrom text 0 (replacedStretches text locations)

/-- The text with a question mark for each usable location. -/
def normalize (text : String) (locations : List Location) : String :=
  ofUtf8 (normalizeBytes (utf8 text) locations)

end PlanFeedback.Query
