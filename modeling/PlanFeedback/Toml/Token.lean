import PlanFeedback.Text.Ascii
import PlanFeedback.Toml.Scalar

/-!
The tokens of a TOML text. The scanner reads one sign at a time; between signs it is in a mode, which
holds what it has read of an open string or word.
-/
namespace PlanFeedback.Toml

/-- A character of a line, or the end of a line as it is written. -/
inductive Sign where
  | char (c : Char)
  | lineEnd (chars : List Char)
  deriving DecidableEq, Repr

/-- The characters that no text may hold outside the end of a line. -/
def isForbidden (c : Char) : Bool := (c.toNat < 0x20 && c != '\t') || c == '\x7f'

/-- The signs of a text. A carriage return is part of the end of a line or refused. -/
def signs? : List Char → Option (List Sign)
  | [] => some []
  | '\r' :: '\n' :: rest => (signs? rest).map (.lineEnd ['\r', '\n'] :: ·)
  | c :: rest =>
    if c = '\n' then (signs? rest).map (.lineEnd ['\n'] :: ·)
    else if isForbidden c then none
    else (signs? rest).map (.char c :: ·)

/-- Brackets know whether they follow on a token without a blank. A word is a run of characters of
bare keys, numbers, dates and dots. A quoted text is a block if it may hold ends of lines. -/
inductive Token where
  | openBracket (glued : Bool)
  | closeBracket (glued : Bool)
  | openBrace
  | closeBrace
  | equals
  | comma
  | lineEnd
  | word (chars : List Char)
  | quoted (isBlock : Bool) (text : String)
  deriving DecidableEq, Repr

/-- What the scanner is in the middle of; characters in reverse. -/
inductive Mode where
  | between (glued : Bool)
  | comment
  | word (read : List Char)
  /-- A space after a date, which a time may follow. -/
  | dateSpace (read : List Char)
  /-- One, two or three opening quotes. -/
  | opening (quote : Char) (count : Nat)
  /-- Inside a string, after a run of quotes. -/
  | string (isBlock : Bool) (quote : Char) (run : Nat) (read : List Char)
  | escape (isBlock : Bool) (read : List Char)
  | code (isBlock : Bool) (read : List Char) (missing value : Nat)
  /-- After a backslash at the end of a line: blanks and ends of lines are passed over. -/
  | joint (read : List Char) (hasEnded : Bool)
  deriving DecidableEq, Repr

/-- A step of the scanner: the tokens that it completes and the next mode. -/
abbrev Step := List Token × Mode

def isKeyChar (c : Char) : Bool := c.isAlphanum || c == '_' || c == '-'

def isWordChar (c : Char) : Bool := isKeyChar c || c == '+' || c == '.' || c == ':'

def isBlank (c : Char) : Bool := c == ' ' || c == '\t'

def punctuation? (glued : Bool) (c : Char) : Option Token :=
  if c = '[' then some (.openBracket glued)
  else if c = ']' then some (.closeBracket glued)
  else if c = '\x7b' then some .openBrace
  else if c = '\x7d' then some .closeBrace
  else if c = '=' then some .equals
  else if c = ',' then some .comma
  else none

def start? (glued : Bool) : Sign → Option Step
  | .lineEnd _ => some ([.lineEnd], .between false)
  | .char c =>
    if isBlank c then some ([], .between false)
    else if c = '#' then some ([], .comment)
    else if c = '"' ∨ c = '\'' then some ([], .opening c 1)
    else if isWordChar c then some ([], .word [c])
    else (punctuation? glued c).map fun t => ([t], .between true)

def following (tokens : List Token) (step? : Option Step) : Option Step :=
  step?.map fun step => (tokens ++ step.1, step.2)

def escaped? (c : Char) : Option Char :=
  if c = '"' ∨ c = '\\' then some c
  else if c = 'b' then some '\x08'
  else if c = 't' then some '\t'
  else if c = 'n' then some '\n'
  else if c = 'f' then some '\x0c'
  else if c = 'r' then some '\r'
  else if c = 'e' then some '\x1b'
  else none

/-- The number of hexadecimal digits after the mark of a long escape. -/
def codeLength? (c : Char) : Option Nat :=
  if c = 'x' then some 2 else if c = 'u' then some 4 else if c = 'U' then some 8 else none

/-- A string that ends after its closing quotes; a block may end in up to two more quotes. -/
def closed (isBlock : Bool) (quote : Char) (extra : Nat) (read : List Char) : Token :=
  .quoted isBlock (String.ofList (List.replicate extra quote ++ read).reverse)

def stringStep? (isBlock : Bool) (quote : Char) (run : Nat) (read : List Char) : Sign → Option Step
  | .lineEnd chars =>
    if !isBlock then none
    else if 3 ≤ run then following [closed true quote (run - 3) read] (start? true (.lineEnd chars))
    else some ([], .string true quote 0 (chars.reverse ++ (List.replicate run quote ++ read)))
  | .char c =>
    if c = quote then
      if !isBlock then some ([closed false quote 0 read], .between true)
      else if run < 5 then some ([], .string true quote (run + 1) read)
      else none
    else if 3 ≤ run then following [closed true quote (run - 3) read] (start? true (.char c))
    else
      let read := List.replicate run quote ++ read
      if c = '\\' ∧ quote = '"' then some ([], .escape isBlock read)
      else some ([], .string isBlock quote 0 (c :: read))

def escapeStep? (isBlock : Bool) (read : List Char) : Sign → Option Step
  | .lineEnd _ => if isBlock then some ([], .joint read true) else none
  | .char c =>
    if isBlank c then if isBlock then some ([], .joint read false) else none
    else
      match codeLength? c with
      | some missing => some ([], .code isBlock read missing 0)
      | none => (escaped? c).map fun e => ([], .string isBlock '"' 0 (e :: read))

def codeStep? (isBlock : Bool) (read : List Char) (missing value : Nat) : Sign → Option Step
  | .lineEnd _ => none
  | .char c => do
    let value := 16 * value + (← Text.hexValue? c)
    if 1 < missing then some ([], .code isBlock read (missing - 1) value)
    else if value.isValidChar then some ([], .string isBlock '"' 0 (Char.ofNat value :: read))
    else none

def step? (mode : Mode) (sign : Sign) : Option Step :=
  match mode, sign with
  | .between glued, sign => start? glued sign
  | .comment, .lineEnd chars => start? false (.lineEnd chars)
  | .comment, .char _ => some ([], .comment)
  | .word read, .char c =>
    if isWordChar c then some ([], .word (c :: read))
    else if c = ' ' ∧ hasDateShape read.reverse then some ([], .dateSpace read)
    else following [.word read.reverse] (start? true (.char c))
  | .word read, .lineEnd chars => following [.word read.reverse] (start? false (.lineEnd chars))
  | .dateSpace read, .char c =>
    if c.isDigit then some ([], .word (c :: ' ' :: read))
    else following [.word read.reverse] (start? false (.char c))
  | .dateSpace read, .lineEnd chars =>
    following [.word read.reverse] (start? false (.lineEnd chars))
  | .opening quote 3, .lineEnd _ => some ([], .string true quote 0 [])
  | .opening quote 3, sign => stringStep? true quote 0 [] sign
  | .opening quote count, sign =>
    if sign = .char quote then some ([], .opening quote (count + 1))
    else if count = 1 then stringStep? false quote 0 [] sign
    else following [.quoted false ""] (start? true sign)
  | .string isBlock quote run read, sign => stringStep? isBlock quote run read sign
  | .escape isBlock read, sign => escapeStep? isBlock read sign
  | .code isBlock read missing value, sign => codeStep? isBlock read missing value sign
  | .joint read _, .lineEnd _ => some ([], .joint read true)
  | .joint read hasEnded, .char c =>
    if isBlank c then some ([], .joint read hasEnded)
    else if hasEnded then stringStep? true '"' 0 read (.char c)
    else none

/-- The end of the text: no string may be open. -/
def finish? : Mode → Option (List Token)
  | .between _ => some []
  | .comment => some []
  | .word read => some [.word read.reverse]
  | .dateSpace read => some [.word read.reverse]
  | .opening _ 2 => some [.quoted false ""]
  | .string true quote run read => if 3 ≤ run then some [closed true quote (run - 3) read] else none
  | _ => none

/-- The tokens of the rest of a text that is entered in a mode. -/
def tokensFrom? (mode : Mode) : List Sign → Option (List Token)
  | [] => finish? mode
  | sign :: rest => do
    let (tokens, next) ← step? mode sign
    return tokens ++ (← tokensFrom? next rest)

/-- The tokens of a text; a byte order mark may stand before it. -/
def tokens? (s : String) : Option (List Token) := do
  let chars := match s.toList with
    | c :: rest => if c = '\ufeff' then rest else c :: rest
    | [] => []
  tokensFrom? (.between false) (← signs? chars)

end PlanFeedback.Toml
