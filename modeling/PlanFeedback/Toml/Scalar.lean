import PlanFeedback.Text.Ascii
import PlanFeedback.Time.Text
import PlanFeedback.Toml.Basic

/-!
The words of TOML: numbers, truth values, dates and times.
-/
namespace PlanFeedback.Toml

open Time (twoDigits?)

/-- Takes the underscores out of a number; each of them parts two digits. -/
def ungroup? (isDigit : Char → Bool) : List Char → Option (List Char)
  | [] => some []
  | '_' :: _ => none
  | c :: '_' :: d :: rest =>
    if isDigit c && isDigit d then (ungroup? isDigit (d :: rest)).map (c :: ·) else none
  | c :: rest => (ungroup? isDigit rest).map (c :: ·)

/-- The base that a mark after a leading zero names. -/
def base? (mark : Char) : Option Nat :=
  if mark = 'x' then some 16 else if mark = 'o' then some 8 else if mark = 'b' then some 2 else none

def digit? (base : Nat) (c : Char) : Option Nat :=
  (Text.hexValue? c).bind fun n => if n < base then some n else none

def natural? (base : Nat) (word : List Char) : Option Nat := do
  let digits ← ungroup? (fun c => (digit? base c).isSome) word
  if digits = [] then none
  else
    digits.foldlM (fun n c => (digit? base c).map fun d => base * n + d) 0

/-- A decimal integer or a number with a fraction or an exponent. -/
def decimal? (negative : Bool) (word : List Char) : Option Value := do
  let n ← Decimal.Numeral.unsigned? (← ungroup? Char.isDigit word)
  let size : Int := Decimal.digitsValue n.whole
  return if n.fraction = [] ∧ n.power? = none then .integer (if negative then -size else size)
    else .float { n with negative }

/-- A number without its sign, which a base excludes. -/
def number? (negative : Bool) (word : List Char) : Option Value :=
  if word = "inf".toList ∨ word = "nan".toList then some .special else decimal? negative word

/-- The rest after two digits that denote at most a given number. -/
def part? (most : Nat) (s : List Char) : Option (List Char) := do
  let (n, rest) ← twoDigits? s
  if n ≤ most then some rest else none

def after? (mark : Char) : List Char → Option (List Char)
  | c :: rest => if c = mark then some rest else none
  | [] => none

/-- The rest after a time of the day; the seconds and their decimals may be missing. -/
def clock? (s : List Char) : Option (List Char) := do
  let s ← part? 59 (← after? ':' (← part? 23 s))
  match s with
  | ':' :: s =>
    match ← part? 60 s with
    | '.' :: decimals =>
      let rest := decimals.dropWhile Char.isDigit
      if rest.length < decimals.length then some rest else none
    | rest => some rest
  | rest => some rest

/-- The rest after an offset from universal time, if there is one. -/
def offset? : List Char → Option (List Char)
  | [] => some []
  | c :: rest =>
    if c = 'Z' ∨ c = 'z' then some rest
    else if c = '+' ∨ c = '-' then do part? 59 (← after? ':' (← part? 23 rest))
    else none

/-- Four digits, two and two, with hyphens between them. -/
def hasDateShape (s : List Char) : Bool :=
  s.map (fun c => if c.isDigit then '0' else c) = "0000-00-00".toList

def isDate (s : List Char) : Bool :=
  hasDateShape s &&
    (⟨Decimal.digitsValue (s.take 4), Decimal.digitsValue ((s.drop 5).take 2),
      Decimal.digitsValue (s.drop 8)⟩ : Time.Date).isValid

/-- A date, a time, or a date and a time with or without an offset. -/
def isMoment (word : List Char) : Bool :=
  if hasDateShape (word.take 10) then
    isDate (word.take 10) &&
      match word.drop 10 with
      | [] => true
      | c :: time =>
        (c = 'T' || c = 't' || c = ' ') && (do offset? (← clock? time)) = some []
  else clock? word = some []

def scalar? (word : List Char) : Option Value :=
  if word = "true".toList then some (.bool true)
  else if word = "false".toList then some (.bool false)
  else if isMoment word then some (.moment word)
  else
    match word with
    | '+' :: rest => number? false rest
    | '-' :: rest => number? true rest
    | '0' :: mark :: digits =>
      match base? mark with
      | some base => (natural? base digits).map fun n => .integer n
      | none => number? false word
    | _ => number? false word

end PlanFeedback.Toml
