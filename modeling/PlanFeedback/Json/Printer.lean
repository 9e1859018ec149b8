import PlanFeedback.Json.Basic
import PlanFeedback.Text.Ascii

/-!
Compact JSON text. Only quotes, backslashes and control characters are escaped, the latter with
their short escape if they have one.
-/
namespace PlanFeedback.Json

def escapeChar (c : Char) : List Char :=
  if c = '"' then ['\\', '"']
  else if c = '\\' then ['\\', '\\']
  else if c = '\x08' then ['\\', 'b']
  else if c = '\x0c' then ['\\', 'f']
  else if c = '\n' then ['\\', 'n']
  else if c = '\r' then ['\\', 'r']
  else if c = '\t' then ['\\', 't']
  else if c.toNat < 0x20 then
    ['\\', 'u', '0', '0', PlanFeedback.Text.hexDigit (c.toNat / 16),
      PlanFeedback.Text.hexDigit (c.toNat % 16)]
  else [c]

/-- A string between quotes. One without a text is written as half of a surrogate pair. -/
def stringText : Text → List Char
  | some s => '"' :: s.toList.flatMap escapeChar ++ ['"']
  | none => "\"\\ud800\"".toList

mutual

def text : Json → List Char
  | .null => "null".toList
  | .bool true => "true".toList
  | .bool false => "false".toList
  | .number n => n.text
  | .string s => stringText s
  | .array [] => ['[', ']']
  | .array (v :: rest) => '[' :: text v ++ itemsText rest
  | .object [] => ['\x7b', '\x7d']
  | .object ((key, v) :: rest) => '\x7b' :: stringText key ++ ':' :: text v ++ membersText rest

/-- The items after the first and the end of an array. -/
def itemsText : List Json → List Char
  | [] => [']']
  | v :: rest => ',' :: text v ++ itemsText rest

/-- The members after the first and the end of an object. -/
def membersText : List (Text × Json) → List Char
  | [] => ['\x7d']
  | (key, v) :: rest => ',' :: stringText key ++ ':' :: text v ++ membersText rest

end

/-- The compact text of a value. -/
def render (v : Json) : String := String.ofList (text v)

end PlanFeedback.Json
