import PlanFeedback.Json.Basic
import PlanFeedback.Text.Ascii

/-!
The tokens of a JSON text. The scanner reads one character at a time; between characters it is in a
mode, which holds what it has read of an open string or word. A byte that belongs to no character may
stand inside a string.
-/
namespace PlanFeedback.Json

inductive Token where
  | openArray
  | closeArray
  | openObject
  | closeObject
  | comma
  | colon
  | null
  | bool (value : Bool)
  | number (numeral : Decimal.Numeral)
  | string (text : Text)
  deriving DecidableEq, Repr

/-- A piece of a string: a character, a unit of UTF-16 given by its number, or a stray byte. -/
inductive Piece where
  | char (c : Char)
  | unit (n : Nat)
  | stray
  deriving DecidableEq, Repr

def isHighUnit (n : Nat) : Bool := 0xD800 ≤ n && n < 0xDC00

def isLowUnit (n : Nat) : Bool := 0xDC00 ≤ n && n < 0xE000

/-- The characters that the pieces of a string spell; the halves of a pair must stand together. -/
def joinPieces : List Piece → Option (List Char)
  | [] => some []
  | .stray :: _ => none
  | .char c :: rest => (joinPieces rest).map (c :: ·)
  | .unit n :: rest =>
    if isHighUnit n then
      match rest with
      | .unit m :: rest₂ =>
        if isLowUnit m then
          (joinPieces rest₂).map (Char.ofNat (0x10000 + (n - 0xD800) * 0x400 + (m - 0xDC00)) :: ·)
        else none
      | _ => none
    else if isLowUnit n then none
    else (joinPieces rest).map (Char.ofNat n :: ·)

/-- What the scanner is in the middle of. Pieces and characters are held in reverse. -/
inductive Mode where
  | between
  | word (read : List Char)
  | string (read : List Piece)
  | escape (read : List Piece)
  | unit (read : List Piece) (missing value : Nat)
  deriving DecidableEq, Repr

def isSpace (c : Char) : Bool := c == ' ' || c == '\t' || c == '\n' || c == '\r'

def isWordChar (c : Char) : Bool := c.isAlphanum || c == '+' || c == '-' || c == '.'

def wordToken? (word : List Char) : Option Token :=
  if word = "null".toList then some .null
  else if word = "true".toList then some (.bool true)
  else if word = "false".toList then some (.bool false)
  else (Decimal.Numeral.ofChars? word).map .number

def punctuation? (c : Char) : Option Token :=
  if c = '[' then some .openArray
  else if c = ']' then some .closeArray
  else if c = '\x7b' then some .openObject
  else if c = '\x7d' then some .closeObject
  else if c = ',' then some .comma
  else if c = ':' then some .colon
  else none

def escaped? (c : Char) : Option Char :=
  if c = '"' ∨ c = '\\' ∨ c = '/' then some c
  else if c = 'b' then some '\x08'
  else if c = 'f' then some '\x0c'
  else if c = 'n' then some '\n'
  else if c = 'r' then some '\r'
  else if c = 't' then some '\t'
  else none

def start? (c : Char) : Option (List Token × Mode) :=
  if isSpace c then some ([], .between)
  else if c = '"' then some ([], .string [])
  else if isWordChar c then some ([], .word [c])
  else (punctuation? c).map fun t => ([t], .between)

/-- One character in a mode: the tokens that it completes and the next mode. -/
def step? (mode : Mode) (c : Char) : Option (List Token × Mode) :=
  match mode with
  | .between => start? c
  | .word read =>
    if isWordChar c then some ([], .word (c :: read))
    else do
      let token ← wordToken? read.reverse
      let (tokens, next) ← start? c
      return (token :: tokens, next)
  | .string read =>
    if c = '"' then some ([.string ((joinPieces read.reverse).map String.ofList)], .between)
    else if c = '\\' then some ([], .escape read)
    else if c.toNat < 0x20 then none
    else some ([], .string (.char c :: read))
  | .escape read =>
    if c = 'u' then some ([], .unit read 4 0)
    else (escaped? c).map fun e => ([], .string (.char e :: read))
  | .unit read missing value => do
    let digit ← PlanFeedback.Text.hexValue? c
    let value := 16 * value + digit
    return ([], if missing ≤ 1 then .string (.unit value :: read) else .unit read (missing - 1) value)

/-- One character, or a byte that belongs to none. -/
def signStep? (mode : Mode) (sign : Option Char) : Option (List Token × Mode) :=
  match sign, mode with
  | some c, mode => step? mode c
  | none, .string read => some ([], .string (.stray :: read))
  | none, _ => none

/-- The end of the text: a word may be open, but nothing else. -/
def finish? : Mode → Option (List Token)
  | .between => some []
  | .word read => (wordToken? read.reverse).map ([·])
  | _ => none

/-- The tokens of the rest of a text that is entered in a mode. -/
def tokensFrom (mode : Mode) : List (Option Char) → Option (List Token)
  | [] => finish? mode
  | sign :: rest => do
    let (tokens, next) ← signStep? mode sign
    return tokens ++ (← tokensFrom next rest)

end PlanFeedback.Json
