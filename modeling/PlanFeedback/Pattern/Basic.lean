import PlanFeedback.Pattern.Bracket

/-!
Regular expressions as patterns of texts: which of them are well formed. The reader keeps the open
groups on a stack; of what has been read it keeps how deep it goes.
-/
namespace PlanFeedback.Pattern

/-- Groups, repetitions, alternatives and brackets nest at most this deep. -/
def depthLimit : Nat := 250

/-- A part of a pattern: its depth, and whether a repetition may follow it. -/
structure Part where
  depth : Nat
  isRepeatable : Bool := true
  deriving DecidableEq, Repr

/-- An open group: whether blanks are passed over in it, the depths of the alternatives before, and the
parts of the one that is being read, the last first. -/
structure Group where
  spaced : Bool
  alternatives : List Nat := []
  parts : List Part := []
  deriving DecidableEq, Repr

namespace Group

def add (g : Group) (part : Part) : Group := { g with parts := part :: g.parts }

def lastDepth (g : Group) : Nat := joinedDepth (g.parts.map Part.depth)

def alternate (g : Group) : Group :=
  { g with alternatives := g.lastDepth :: g.alternatives, parts := [] }

def depth (g : Group) : Nat := joinedDepth (g.lastDepth :: g.alternatives)

def repeat? (g : Group) : Option Group :=
  match g.parts with
  | part :: rest =>
    if part.isRepeatable then some { g with parts := ⟨part.depth + 1, true⟩ :: rest } else none
  | [] => none

end Group

/-- What stands behind an opening parenthesis: switches alone, or the start of a group, each with what
it says about blanks. -/
inductive Opening where
  | switches (spaced? : Option Bool)
  | group (spaced? : Option Bool)
  | named (name : Chars)
  deriving DecidableEq, Repr

/-- Switches are letters of which none is given twice; those behind a hyphen are turned off. -/
def areSwitches (s : Chars) : Bool :=
  s.all (fun c => ['i', 'm', 's', 'U', 'u', 'R', 'x', '-'].contains c && s.count c == 1) &&
    s.getLast? != some '-'

def spacing? (s : Chars) : Option Bool :=
  if s.contains 'x' then some ((s.takeWhile (· != '-')).contains 'x') else none

/-- The first character of the name of a group. Beyond ASCII every character counts as a letter. -/
def isNameStart (c : Char) : Bool := c == '_' || c.isAlpha || 0x80 ≤ c.toNat

def isNamePart (c : Char) : Bool := isNameStart c || c.isDigit || c == '.' || c == '[' || c == ']'

def groupName? (s : Chars) : Option (Opening × Chars) :=
  let name := s.takeWhile (· != '>')
  match s.drop name.length with
  | _ :: rest =>
    if name.head?.any isNameStart ∧ name.all isNamePart then some (.named name, rest) else none
  | [] => none

def opening? : Chars → Option (Opening × Chars)
  | '?' :: 'P' :: '<' :: rest => groupName? rest
  | '?' :: '<' :: rest => groupName? rest
  | '?' :: rest =>
    let switches := rest.takeWhile fun c => c != ':' && c != ')'
    if areSwitches switches then
      match rest.drop switches.length with
      | ':' :: rest => some (.group (spacing? switches), rest)
      | _ :: rest => if switches = [] then none else some (.switches (spacing? switches), rest)
      | [] => none
    else none
  | rest => some (.group none, rest)

/-- The number that digits between blanks spell; it has 32 bits. -/
def count? (s : Chars) : Option Nat := do
  let digits := Text.trimBlanks s
  if digits = [] ∨ !digits.all Char.isDigit then none
  else
    let n := digits.foldl (fun n c => 10 * n + (c.toNat - '0'.toNat)) 0
    if n < 0x100000000 then some n else none

/-- The text in the braces of a repetition: a number, the least number, or the least and the most. -/
def areCounts (s : Chars) : Bool :=
  let least := s.takeWhile (· != ',')
  match s.drop least.length with
  | [] => (count? least).isSome
  | [_] => (count? least).isSome
  | _ :: most => (count? least).any fun m => (count? most).any fun n => m ≤ n

def dropQuestion (s : Chars) : Chars := if s.head? = some '?' then s.drop 1 else s

/-- Reads the rest of a pattern inside open groups, of which some have been named. -/
def isWellFormedFrom : (fuel : Nat) → Group → List Group → (names : List Chars) → Chars → Bool
  | 0, _, _, _, _ => false
  | fuel + 1, g, outer, names, s =>
    match next g.spaced s with
    | [] => outer.isEmpty && g.depth ≤ depthLimit
    | '(' :: rest =>
      match opening? (next g.spaced rest) with
      | some (.switches spaced?, rest) =>
        let g := { g.add ⟨0, false⟩ with spaced := spaced?.getD g.spaced }
        isWellFormedFrom fuel g outer names rest
      | some (.group spaced?, rest) =>
        isWellFormedFrom fuel ⟨spaced?.getD g.spaced, [], []⟩ (g :: outer) names rest
      | some (.named name, rest) =>
        !names.contains name && isWellFormedFrom fuel ⟨g.spaced, [], []⟩ (g :: outer) (name :: names) rest
      | none => false
    | ')' :: rest =>
      match outer with
      | o :: outer => isWellFormedFrom fuel (o.add ⟨g.depth + 1, true⟩) outer names rest
      | [] => false
    | '|' :: rest => isWellFormedFrom fuel g.alternate outer names rest
    | '[' :: rest =>
      match bracket? g.spaced rest with
      | some (depth, rest) => isWellFormedFrom fuel (g.add ⟨depth, true⟩) outer names rest
      | none => false
    | '\x7b' :: rest =>
      match g.repeat?, braced? g.spaced false rest with
      | some g, some (counts, rest) =>
        areCounts counts &&
          isWellFormedFrom fuel g outer names (dropQuestion (next g.spaced rest))
      | _, _ => false
    | '\\' :: rest =>
      match escape? g.spaced rest with
      | some (_, rest) => isWellFormedFrom fuel (g.add ⟨0, true⟩) outer names rest
      | none => false
    | c :: rest =>
      if c = '?' ∨ c = '*' ∨ c = '+' then
        match g.repeat? with
        | some g => isWellFormedFrom fuel g outer names (dropQuestion rest)
        | none => false
      else isWellFormedFrom fuel (g.add ⟨0, true⟩) outer names rest

def isWellFormed (s : String) : Bool :=
  isWellFormedFrom (s.toList.length + 1) ⟨false, [], []⟩ [] [] s.toList

end PlanFeedback.Pattern
