import PlanFeedback.Pattern.Escape

/-!
Sets of characters in square brackets. Brackets nest, and two signs in a row join two sets. The reader
keeps the open brackets on a stack and tells how deep a set goes.
-/
namespace PlanFeedback.Pattern

/-- The depth of parts side by side: a single one adds no level. -/
def joinedDepth : List Nat → Nat
  | [] => 0
  | [d] => d
  | ds => ds.foldl max 0 + 1

/-- An open bracket: the depth of what has been joined to its left, and the depths of its members. -/
structure Bracket where
  left? : Option Nat := none
  members : List Nat := []
  deriving DecidableEq, Repr

namespace Bracket

def add (b : Bracket) (depth : Nat) : Bracket := { b with members := depth :: b.members }

/-- The depth of what stands between the brackets. -/
def content (b : Bracket) : Nat :=
  match b.left? with
  | none => joinedDepth b.members
  | some left => max left (joinedDepth b.members) + 1

def depth (b : Bracket) : Nat := b.content + 1

/-- What has been read is joined with what follows. -/
def join (b : Bracket) : Bracket := { left? := some b.content }

end Bracket

/-- The classes that have a name between colons. -/
def classNames : List String :=
  ["alnum", "alpha", "ascii", "blank", "cntrl", "digit", "graph", "lower", "print", "punct", "space",
    "upper", "word", "xdigit"]

/-- A class behind the bracket that opens it, negated by a circumflex. -/
def namedClass? : Chars → Option Chars
  | ':' :: rest =>
    let rest := if rest.head? = some '^' then rest.drop 1 else rest
    let name := rest.takeWhile (· != ':')
    match rest.drop name.length with
    | ':' :: ']' :: after => if classNames.contains (String.ofList name) then some after else none
    | _ => none
  | _ => none

/-- A member of a set: a character, or several of them. A place is none. -/
def member? (spaced : Bool) : Chars → Option (Option Char × Chars)
  | [] => none
  | '\\' :: rest => do
    match ← escape? spaced rest with
    | (.char c, rest) => some (some c, rest)
    | (.set, rest) => some (none, rest)
    | (.place, _) => none
  | c :: rest => some (some c, rest)

/-- A member or a range of characters in order. A hyphen before a bracket or a hyphen makes no range. -/
def range? (spaced : Bool) (s : Chars) : Option Chars := do
  let (first, rest) ← member? spaced s
  match next spaced rest with
  | '-' :: after =>
    match next spaced after with
    | ']' :: _ => some ('-' :: after)
    | '-' :: _ => some ('-' :: after)
    | s => do
      let (last, rest) ← member? spaced s
      if (← first) ≤ (← last) then some rest else none
  | s => some s

/-- Hyphens at the start of a set are members. -/
def hyphens (spaced : Bool) : (fuel : Nat) → Bracket → Chars → Bracket × Chars
  | 0, b, s => (b, s)
  | fuel + 1, b, s =>
    match next spaced s with
    | '-' :: rest => hyphens spaced fuel (b.add 0) rest
    | s => (b, s)

/-- The start of a set, which may be negated. A closing bracket there is a member. -/
def openBracket (spaced : Bool) (s : Chars) : Bracket × Chars :=
  let s := match next spaced s with
    | '^' :: rest => rest
    | s => s
  match hyphens spaced s.length {} s with
  | (⟨none, []⟩, ']' :: rest) => (⟨none, [0]⟩, rest)
  | r => r

/-- Reads the rest of an open bracket inside others: the depth of the outermost and what follows. -/
def bracketFrom? (spaced : Bool) :
    (fuel : Nat) → Bracket → List Bracket → Chars → Option (Nat × Chars)
  | 0, _, _, _ => none
  | fuel + 1, b, outer, s =>
    match next spaced s with
    | ']' :: rest =>
      match outer with
      | [] => some (b.depth, rest)
      | o :: outer => bracketFrom? spaced fuel (o.add b.depth) outer rest
    | '[' :: rest =>
      match namedClass? rest with
      | some rest => bracketFrom? spaced fuel (b.add 0) outer rest
      | none =>
        let (inner, rest) := openBracket spaced rest
        bracketFrom? spaced fuel inner (b :: outer) rest
    | '&' :: '&' :: rest => bracketFrom? spaced fuel b.join outer rest
    | '-' :: '-' :: rest => bracketFrom? spaced fuel b.join outer rest
    | '~' :: '~' :: rest => bracketFrom? spaced fuel b.join outer rest
    | s => do bracketFrom? spaced fuel (b.add 0) outer (← range? spaced s)

/-- Reads a set behind its first bracket. -/
def bracket? (spaced : Bool) (s : Chars) : Option (Nat × Chars) :=
  let (b, rest) := openBracket spaced s
  bracketFrom? spaced (s.length + 1) b [] rest

end PlanFeedback.Pattern
