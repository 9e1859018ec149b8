import PlanFeedback.Decimal.Numeral

/-!
JSON values as they are written: numbers keep their digits, objects keep the order and the
repetitions of their members. A string that holds half of a surrogate pair or a byte of no character
has no text; it is only refused where its text is needed.
-/
namespace PlanFeedback

/-- The characters of a JSON string, if they can be told. -/
abbrev Json.Text := Option String

inductive Json where
  | null
  | bool (value : Bool)
  | number (numeral : Decimal.Numeral)
  | string (text : Json.Text)
  | array (items : List Json)
  | object (members : List (Json.Text × Json))

namespace Json

def ofString (s : String) : Json := .string (some s)

def ofNat (n : Nat) : Json := .number (.ofNat n)

/-- A value, or null in its absence. -/
def ofOption {α : Type} (f : α → Json) : Option α → Json
  | none => .null
  | some x => f x

def record (members : List (String × Json)) : Json :=
  .object (members.map fun m => (some m.1, m.2))

end Json

end PlanFeedback
