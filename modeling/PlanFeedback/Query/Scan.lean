import PlanFeedback.Query.Literal
import PlanFeedback.Query.Source

/-!
The scanner, which finds the literals of a query without a parser. It reads the text token by token
and keeps one bit of context: whether an operand has just ended, which tells a binary minus from a
unary one.
-/
namespace PlanFeedback.Query

open Text

/-- The keywords after which an expression begins, so that a minus after them is unary. -/
def operatorKeywords : List String :=
  ["all", "and", "any", "as", "between", "by", "case", "else", "escape", "fetch", "having",
    "ilike", "in", "is", "like", "limit", "not", "offset", "on", "or", "return", "returning",
    "select", "set", "similar", "some", "then", "using", "values", "when", "where", "with"]

def isOperatorKeyword (word : Bytes) : Bool :=
  operatorKeywords.any fun keyword => utf8 keyword == word.map toLower

/-- A token of the scanner: its length, whether it is a literal, and whether an operand has just
ended when it is over. -/
structure Token where
  length : Nat
  isLiteral : Bool
  afterOperand : Bool
  deriving DecidableEq, Repr

namespace Token

def literal (length : Nat) : Token := ⟨length, true, true⟩

def code (length : Nat) (afterOperand : Bool) : Token := ⟨length, false, afterOperand⟩

end Token

/-- The length through the first occurrence of a closing mark, or to the end of the text. -/
def lengthThrough (mark b : Bytes) : Nat :=
  match offsetOf? mark b with
  | some n => n + mark.length
  | none => b.length

/-- After an opening double quote, the length through the closing one or to the end of the text. -/
def identifierLength : Bytes → Nat
  | [] => 0
  | c :: rest =>
    if c = 0x22 then
      match rest with
      | [] => 1
      | q :: rest₂ => if q = 0x22 then identifierLength rest₂ + 2 else 1
    else identifierLength rest + 1

/-- A word is the mark of a string constant when it is a single letter of one and the rest of the
opening follows. -/
def isStringMark (word rest : Bytes) : Bool :=
  match word with
  | [c] =>
    ((isEscapeLetter c || isStringLetter c) && startsQuote rest) ||
      (isUnicodeLetter c && startsUnicodeQuote rest)
  | _ => false

/-- The token made of a word, or of a string constant that the word opens. -/
def wordToken (b : Bytes) : Token :=
  let n := wordLength b
  let word := b.take n
  let plain := Token.code n (!isOperatorKeyword word)
  if isStringMark word (b.drop n) then
    match literalLength? b with
    | some length => .literal length
    | none => plain
  else plain

/-- The token at the head of `c :: rest`. Comments and blanks keep the context. -/
def nextToken (afterOperand : Bool) (c : UInt8) (rest : Bytes) : Token :=
  if c = 0x2D ∧ rest.head? = some 0x2D then
    .code (1 + lengthThrough [0x0A] rest) afterOperand
  else if c = 0x2F ∧ rest.head? = some 0x2A then
    .code (2 + lengthThrough [0x2A, 0x2F] (rest.drop 1)) afterOperand
  else if c = 0x2D ∧ !afterOperand ∧ startsNumber rest then
    .literal (1 + numberLength rest)
  else if c = 0x22 then .code (1 + identifierLength rest) true
  else if c = 0x27 ∨ c = 0x24 then
    match literalLength? (c :: rest) with
    | some length => .literal length
    | none => .code 1 false
  else if startsNumber (c :: rest) then .literal (numberLength (c :: rest))
  else if isWordStart c then wordToken (c :: rest)
  else if isSpace c then .code 1 afterOperand
  else .code 1 (c == 0x29 || c == 0x5D)

/-- The literals of the remaining bytes, the first of which stands at `position`. -/
def scanFrom (afterOperand : Bool) (position : Nat) : Bytes → List Location
  | [] => []
  | c :: rest =>
    let token := nextToken afterOperand c rest
    let found := scanFrom token.afterOperand (position + token.length) (rest.drop (token.length - 1))
    if token.isLiteral then .span position token.length :: found else found
termination_by b => b.length

/-- The literals of a query: numbers, strings, bit strings, dollar-quoted strings and parameter
markers. A minus that stands directly before a number and not after an operand belongs to it. -/
def scan (text : String) : List Location :=
  scanFrom false 0 (utf8 text)

end PlanFeedback.Query
