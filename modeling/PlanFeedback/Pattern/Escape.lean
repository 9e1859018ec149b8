import PlanFeedback.Pattern.Property
import PlanFeedback.Text.Ascii
import PlanFeedback.Text.Blank

/-!
What a backslash in a pattern stands for. A pattern may be written with blanks and comments between its
signs, which are then passed over.
-/
namespace PlanFeedback.Pattern

abbrev Chars := List Char

/-- Passes over blanks and comments, which go from a number sign to the end of the line. -/
def skipBlanks : (isComment : Bool) → Chars → Chars
  | _, [] => []
  | true, c :: rest => skipBlanks (c != '\n') rest
  | false, c :: rest =>
    if Text.isBlank c then skipBlanks false rest
    else if c = '#' then skipBlanks true rest
    else c :: rest

/-- The next sign of a pattern that may be spaced. -/
def next (spaced : Bool) (s : Chars) : Chars := if spaced then skipBlanks false s else s

/-- The signs up to a closing brace, and what follows it. -/
def braced? (spaced : Bool) : (isComment : Bool) → Chars → Option (Chars × Chars)
  | _, [] => none
  | true, c :: rest => braced? spaced (c != '\n') rest
  | false, c :: rest =>
    if c = '\x7d' then some ([], rest)
    else if spaced ∧ c = '#' then braced? spaced true rest
    else if spaced ∧ Text.isBlank c then braced? spaced false rest
    else (braced? spaced false rest).map fun r => (c :: r.1, r.2)

/-- What an escape stands for: a character, one of several characters, or a place between two. -/
inductive Escape where
  | char (c : Char)
  | set
  | place
  deriving DecidableEq, Repr

/-- The number that a given count of hexadecimal digits adds to. -/
def hexDigits? (spaced : Bool) : (count : Nat) → (value : Nat) → Chars → Option (Nat × Chars)
  | 0, value, s => some (value, s)
  | count + 1, value, s =>
    match next spaced s with
    | c :: rest => do hexDigits? spaced count (16 * value + (← Text.hexValue? c)) rest
    | [] => none

/-- A character given by its number, of so many digits or in braces. -/
def numbered? (spaced : Bool) (count : Nat) (s : Chars) : Option (Escape × Chars) := do
  let (value, rest) ← match next spaced s with
    | '\x7b' :: rest => do
      let (digits, rest) ← braced? spaced false rest
      let values ← digits.mapM Text.hexValue?
      if values = [] then none else some (values.foldl (fun n d => 16 * n + d) 0, rest)
    | s => hexDigits? spaced count 0 s
  if value.isValidChar then some (.char (Char.ofNat value), rest) else none

/-- A property, named by a letter or in braces. -/
def property? (spaced : Bool) (s : Chars) : Option (Escape × Chars) := do
  let (name, rest) ← match next spaced s with
    | '\x7b' :: rest => braced? spaced false rest
    | c :: rest => some ([c], rest)
    | [] => none
  if isPropertyName name then some (.set, rest) else none

/-- The edge of a word, which may be told by a name in braces. Other braces are a repetition. -/
def wordEdge? (spaced : Bool) (s : Chars) : Option (Escape × Chars) :=
  match s with
  | '\x7b' :: inside =>
    match next spaced inside with
    | [] => none
    | c :: _ =>
      if c.isAlpha ∨ c = '-' then do
        let (name, rest) ← braced? spaced false inside
        if ["start", "end", "start-half", "end-half"].contains (String.ofList name) then
          some (.place, rest)
        else none
      else some (.place, s)
  | s => some (.place, s)

def control? (c : Char) : Option Char :=
  [('a', '\x07'), ('f', '\x0c'), ('t', '\t'), ('n', '\n'), ('r', '\r'), ('v', '\x0b')].lookup c

/-- What follows a backslash. Of the letters and digits few have a meaning, and all else in ASCII
stands for itself. -/
def escape? (spaced : Bool) : Chars → Option (Escape × Chars)
  | [] => none
  | c :: rest =>
    if c = 'x' then numbered? spaced 2 rest
    else if c = 'u' then numbered? spaced 4 rest
    else if c = 'U' then numbered? spaced 8 rest
    else if c = 'p' ∨ c = 'P' then property? spaced rest
    else if ['d', 's', 'w', 'D', 'S', 'W'].contains c then some (.set, rest)
    else if c = 'b' then wordEdge? spaced rest
    else if ['A', 'z', 'B', '<', '>'].contains c then some (.place, rest)
    else if c.toNat < 0x80 ∧ !c.isAlphanum then some (.char c, rest)
    else (control? c).map fun k => (.char k, rest)

end PlanFeedback.Pattern
