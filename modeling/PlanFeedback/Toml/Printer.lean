import PlanFeedback.Text.Ascii

/-!
TOML text of sections of plain values. A string is written in the plainest of four ways that needs no
escape, and with escapes where all of them need one.
-/
namespace PlanFeedback.Toml

/-- A value of one line, or a string. -/
inductive Plain where
  | bool (b : Bool)
  | natural (n : Nat)
  | string (s : String)
  deriving DecidableEq, Repr

/-- The length of the longest run of a character, `run` being the length of the run before. -/
def longestRunFrom (mark : Char) (run : Nat) : List Char → Nat
  | [] => run
  | c :: rest =>
    if c = mark then longestRunFrom mark (run + 1) rest
    else max run (longestRunFrom mark 0 rest)

def longestRun (mark : Char) (s : List Char) : Nat := longestRunFrom mark 0 s

/-- Control characters other than the tab and the line feed are written as escapes only. -/
def needsEscape (c : Char) : Bool :=
  (c.toNat < 0x20 && c != '\t' && c != '\n') || c == '\x7f'

/-- How a string is written: with escapes or without, on one line or as a block. -/
structure Style where
  escapes : Bool
  isBlock : Bool
  deriving DecidableEq, Repr

def Style.of (s : List Char) : Style :=
  let hasCode := s.any needsEscape
  let hasEnd := s.contains '\n'
  let hasBackslash := s.contains '\\'
  let double := longestRun '"' s
  let single := longestRun '\'' s
  if !hasCode && !hasBackslash && double = 0 && !hasEnd then ⟨true, false⟩
  else if !hasCode && single = 0 && !hasEnd then ⟨false, false⟩
  else if !hasCode && !hasBackslash && double ≤ 2 then ⟨true, true⟩
  else if !hasCode && single ≤ 2 then ⟨false, true⟩
  else ⟨true, hasEnd⟩

def upperHexDigit (n : Nat) : Char := (Text.hexDigit n).toUpper

/-- A character between double quotes, on one line or in a block. -/
def escapeChar (isBlock : Bool) (c : Char) : List Char :=
  if c = '\\' then ['\\', '\\']
  else if c = '\x08' then ['\\', 'b']
  else if c = '\t' then ['\\', 't']
  else if c = '\n' then if isBlock then [c] else ['\\', 'n']
  else if c = '\x0c' then ['\\', 'f']
  else if c = '\r' then ['\\', 'r']
  else if needsEscape c then
    ['\\', 'u', '0', '0', upperHexDigit (c.toNat / 16), upperHexDigit (c.toNat % 16)]
  else [c]

/-- The body of a string with escapes. No more than two quotes stand together in a block and none on
a line; `run` quotes stand before. -/
def escapedFrom (isBlock : Bool) (run : Nat) : List Char → List Char
  | [] => []
  | c :: rest =>
    if c = '"' then
      if isBlock && run < 2 then '"' :: escapedFrom isBlock (run + 1) rest
      else '\\' :: '"' :: escapedFrom isBlock 0 rest
    else escapeChar isBlock c ++ escapedFrom isBlock 0 rest

/-- A string in its plainest style. A block that holds the end of a line starts on a line of its
own. -/
def stringText (s : List Char) : List Char :=
  let style := Style.of s
  let quotes := List.replicate (if style.isBlock then 3 else 1) (if style.escapes then '"' else '\'')
  let start := if style.isBlock && s.contains '\n' then ['\n'] else []
  quotes ++ start ++ (if style.escapes then escapedFrom style.isBlock 0 s else s) ++ quotes

def Plain.text : Plain → List Char
  | .bool b => (if b then "true" else "false").toList
  | .natural n => Nat.toDigits 10 n
  | .string s => stringText s.toList

structure Section where
  name : String
  entries : List (String × Plain)

def entryText (e : String × Plain) : List Char :=
  e.1.toList ++ " = ".toList ++ e.2.text ++ ['\n']

def Section.text (s : Section) : List Char :=
  '[' :: s.name.toList ++ ']' :: '\n' :: s.entries.flatMap entryText

/-- Sections with an empty line between each two. -/
def document (sections : List Section) : String :=
  String.ofList (List.intercalate ['\n'] (sections.map Section.text))

end PlanFeedback.Toml
