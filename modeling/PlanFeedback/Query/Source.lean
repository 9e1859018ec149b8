/-!
Query text as a client submits it, with what a parser has noted about its literals.
-/
namespace PlanFeedback.Query

/-- Where a literal stands in a text, in bytes; without a length the token found there is meant. -/
structure Location where
  offset : Nat
  length? : Option Nat := none
  deriving DecidableEq, Repr

namespace Location

def token (offset : Nat) : Location := { offset }

def span (offset length : Nat) : Location := { offset, length? := some length }

end Location

/-- A text, the statement of interest in it and the literals of the whole text. The statement
starts at byte `start` and reaches to the end of the text if it has no length. -/
structure Source where
  text : String
  start : Nat := 0
  length? : Option Nat := none
  locations? : Option (List Location) := none
  deriving DecidableEq, Repr

namespace Source

/-- A text that is one statement, with its literals. -/
def new (text : String) (locations : List Location) : Source :=
  { text, locations? := some locations }

/-- A text about whose literals nothing is known. -/
def withoutLocations (text : String) : Source := { text }

end Source

end PlanFeedback.Query
