import PlanFeedback.Text.Ascii

/-!
Literal tokens of query text: numbers, quoted strings, bit strings, dollar-quoted strings and
parameter markers, and the words that stand for a literal such as `true`. Each function looks at the
bytes that remain and answers how many of them belong to the token.
-/
namespace PlanFeedback.Query

open Text

/-- A byte that starts a word: a letter, an underscore or a byte of a non-ASCII character. -/
def isWordStart (b : UInt8) : Bool := isLetter b || b == 0x5F || 0x80 ≤ b

/-- A byte that continues the tag of a dollar quote. -/
def isTagByte (b : UInt8) : Bool := isWordStart b || isDigit b

/-- A byte that continues a word: a tag byte or a dollar sign. -/
def isWordByte (b : UInt8) : Bool := isTagByte b || b == 0x24

def digitsLength (b : Bytes) : Nat := (b.takeWhile isDigit).length

def wordLength (b : Bytes) : Nat := (b.takeWhile isWordByte).length

def startsDigit : Bytes → Bool
  | [] => false
  | c :: _ => isDigit c

/-- A digit comes next, or a point and a digit. -/
def startsNumber : Bytes → Bool
  | [] => false
  | c :: rest => isDigit c || (c == 0x2E && startsDigit rest)

/-- The length of a point with the digits after it, of which there may be none. -/
def fractionLength : Bytes → Nat
  | [] => 0
  | c :: rest => if c = 0x2E then 1 + digitsLength rest else 0

def signLength : Bytes → Nat
  | [] => 0
  | c :: _ => if c = 0x2B ∨ c = 0x2D then 1 else 0

/-- The length of an exponent, which needs a digit. -/
def exponentLength : Bytes → Nat
  | [] => 0
  | c :: rest =>
    let sign := signLength rest
    if (c = 0x65 ∨ c = 0x45) ∧ startsDigit (rest.drop sign) then
      1 + sign + digitsLength (rest.drop sign)
    else 0

def numberLength (b : Bytes) : Nat :=
  let whole := digitsLength b
  let mantissa := whole + fractionLength (b.drop whole)
  mantissa + exponentLength (b.drop mantissa)

/-- After an opening quote, the length through the closing one. A doubled quote stands for itself,
and where `escapes` holds a backslash hides the byte after it. -/
def closingLength? (escapes : Bool) : Bytes → Option Nat
  | [] => none
  | c :: rest =>
    if escapes && c == 0x5C then
      match rest with
      | [] => none
      | _ :: rest₂ => (closingLength? escapes rest₂).map (· + 2)
    else if c == 0x27 then
      match rest with
      | [] => some 1
      | q :: rest₂ => if q = 0x27 then (closingLength? escapes rest₂).map (· + 2) else some 1
    else (closingLength? escapes rest).map (· + 1)

/-- The bytes before the first occurrence of a pattern. -/
def offsetOf? (pattern : Bytes) : Bytes → Option Nat
  | [] => if pattern.isEmpty then some 0 else none
  | c :: rest =>
    if pattern.isPrefixOf (c :: rest) then some 0 else (offsetOf? pattern rest).map (· + 1)

/-- The tag of a dollar quote, given the bytes after its first dollar sign. -/
def dollarTag? (b : Bytes) : Option Bytes :=
  let tag := b.takeWhile isTagByte
  match b.drop tag.length with
  | [] => none
  | c :: _ => if c = 0x24 ∧ !startsDigit tag then some tag else none

/-- The length of a dollar-quoted string, given the bytes after its first dollar sign: it ends with
the first repetition of its opening mark. -/
def dollarQuotedLength? (b : Bytes) : Option Nat := do
  let tag ← dollarTag? b
  let body := b.drop (tag.length + 1)
  let close ← offsetOf? (0x24 :: tag ++ [0x24]) body
  return 2 * (tag.length + 2) + close

def startsQuote : Bytes → Bool
  | [] => false
  | c :: _ => c == 0x27

def startsUnicodeQuote : Bytes → Bool
  | [] => false
  | c :: rest => c == 0x26 && startsQuote rest

/-- The letter of an escape string, `E'…'`. -/
def isEscapeLetter (b : UInt8) : Bool := toLower b == 0x65

/-- The letter of a bit string or a national string: `B'…'`, `X'…'`, `N'…'`. -/
def isStringLetter (b : UInt8) : Bool :=
  let c := toLower b
  c == 0x62 || c == 0x78 || c == 0x6E

/-- The letter of a Unicode string, `U&'…'`. -/
def isUnicodeLetter (b : UInt8) : Bool := toLower b == 0x75

/-- The length of the literal token that comes next; none if no token starts there or if it is not
closed. -/
def literalLength? : Bytes → Option Nat
  | [] => none
  | c :: rest =>
    if c = 0x27 then (closingLength? false rest).map (· + 1)
    else if c = 0x24 then
      if startsDigit rest then some (1 + digitsLength rest) else dollarQuotedLength? rest
    else if c = 0x2D ∨ c = 0x2B then
      if startsNumber rest then some (1 + numberLength rest) else none
    else if startsNumber (c :: rest) then some (numberLength (c :: rest))
    else if isEscapeLetter c ∧ startsQuote rest then
      (closingLength? true (rest.drop 1)).map (· + 2)
    else if isStringLetter c ∧ startsQuote rest then
      (closingLength? false (rest.drop 1)).map (· + 2)
    else if isUnicodeLetter c ∧ startsUnicodeQuote rest then
      (closingLength? false (rest.drop 2)).map (· + 3)
    else if isWordStart c then some (wordLength (c :: rest))
    else none

/-- The length of the literal token at a byte offset of a text. -/
def literalLengthAt? (text : String) (offset : Nat) : Option Nat :=
  literalLength? ((utf8 text).drop offset)

end PlanFeedback.Query
