import PlanFeedback.Json.Token

/-!
Reading JSON text. The parser takes the tokens one by one and keeps the open arrays and objects on a
stack, so that nothing bounds the nesting.
-/
namespace PlanFeedback.Json

/-- An open array, or an open object that waits for the value of a key; items in reverse. -/
inductive Frame where
  | array (items : List Json)
  | object (members : List (Text × Json)) (key : Text)

inductive State where
  /-- A value comes next, or the end of an array that has just been opened. -/
  | value (mayClose : Bool) (stack : List Frame)
  /-- A key comes next, or the end of an object that has just been opened. -/
  | key (mayClose : Bool) (members : List (Text × Json)) (stack : List Frame)
  /-- The colon after a key comes next. -/
  | colon (members : List (Text × Json)) (key : Text) (stack : List Frame)
  /-- A value has been read. -/
  | complete (v : Json) (stack : List Frame)

def valueStep? (mayClose : Bool) (stack : List Frame) : Token → Option State
  | .null => some (.complete .null stack)
  | .bool b => some (.complete (.bool b) stack)
  | .number n => some (.complete (.number n) stack)
  | .string s => some (.complete (.string s) stack)
  | .openArray => some (.value true (.array [] :: stack))
  | .openObject => some (.key true [] stack)
  | .closeArray =>
    match mayClose, stack with
    | true, .array items :: rest => some (.complete (.array items.reverse) rest)
    | _, _ => none
  | _ => none

def completeStep? (v : Json) : List Frame → Token → Option State
  | .array items :: rest, .comma => some (.value false (.array (v :: items) :: rest))
  | .array items :: rest, .closeArray => some (.complete (.array (v :: items).reverse) rest)
  | .object members key :: rest, .comma => some (.key false ((key, v) :: members) rest)
  | .object members key :: rest, .closeObject =>
    some (.complete (.object ((key, v) :: members).reverse) rest)
  | _, _ => none

def State.step? : State → Token → Option State
  | .value mayClose stack, token => valueStep? mayClose stack token
  | .key _ members stack, .string name => some (.colon members name stack)
  | .key true members stack, .closeObject => some (.complete (.object members.reverse) stack)
  | .colon members name stack, .colon => some (.value false (.object members name :: stack))
  | .complete v stack, token => completeStep? v stack token
  | _, _ => none

def ofTokens? (tokens : List Token) : Option Json := do
  match ← tokens.foldlM State.step? (.value false []) with
  | .complete v [] => some v
  | _ => none

def ofText? (s : String) : Option Json :=
  (tokensFrom .between (s.toList.map some)).bind ofTokens?

def ofBytes? (bytes : PlanFeedback.Text.Bytes) : Option Json :=
  (tokensFrom .between (PlanFeedback.Text.characters bytes)).bind ofTokens?

end PlanFeedback.Json
