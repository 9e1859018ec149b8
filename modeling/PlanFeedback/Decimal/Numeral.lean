import PlanFeedback.Decimal.Binary

/-!
Decimal numerals as they are written: a sign, the digits before and after the point, and an
exponent.
-/
namespace PlanFeedback.Decimal

/-- The exponent of a numeral, a sign and digits. -/
structure Power where
  negative : Bool
  digits : List Char
  deriving DecidableEq, Repr

/-- A numeral. Without a fraction there is no point. -/
structure Numeral where
  negative : Bool := false
  whole : List Char
  fraction : List Char := []
  power? : Option Power := none
  deriving DecidableEq, Repr

/-- The number that digits denote, `n` being the number before them. -/
def digitsValueFrom (n : Nat) : List Char → Nat
  | [] => n
  | c :: rest => digitsValueFrom (10 * n + (c.toNat - '0'.toNat)) rest

def digitsValue (digits : List Char) : Nat := digitsValueFrom 0 digits

def digitChars (n : Nat) : List Char := Nat.toDigits 10 n

def Power.value (p : Power) : Int :=
  if p.negative then -digitsValue p.digits else digitsValue p.digits

def Power.text (p : Power) : List Char :=
  'e' :: (if p.negative then '-' else '+') :: p.digits

namespace Numeral

def ofNat (n : Nat) : Numeral := { whole := digitChars n }

/-- The sign, the digits, the point where there is a fraction, and the exponent. -/
def text (n : Numeral) : List Char :=
  (if n.negative then ['-'] else []) ++ n.whole ++
    (if n.fraction.isEmpty then [] else '.' :: n.fraction) ++
    match n.power? with
    | none => []
    | some p => p.text

def power (s : List Char) : Option Power :=
  match s with
  | [] => none
  | c :: rest =>
    let digits := if c = '+' ∨ c = '-' then rest else c :: rest
    if digits ≠ [] ∧ digits.all Char.isDigit then some ⟨c = '-', digits⟩ else none

/-- Reads what may follow the digits before the point and the fraction. -/
def tail? (n : Numeral) (s : List Char) : Option Numeral :=
  match s with
  | [] => some n
  | c :: rest =>
    if c = 'e' ∨ c = 'E' then (power rest).map fun p => { n with power? := some p } else none

/-- Reads a numeral without a sign: no leading zeros, a digit on either side of a point. -/
def unsigned? (s : List Char) : Option Numeral :=
  let whole := s.takeWhile Char.isDigit
  if whole = [] ∨ (whole.head? = some '0' ∧ whole ≠ ['0']) then none
  else
    match s.drop whole.length with
    | '.' :: rest =>
      let fraction := rest.takeWhile Char.isDigit
      if fraction = [] then none
      else tail? { whole, fraction } (rest.drop fraction.length)
    | rest => tail? { whole } rest

/-- Reads a numeral with an optional minus sign. -/
def ofChars? (s : List Char) : Option Numeral :=
  match s with
  | '-' :: rest => (unsigned? rest).map fun n => { n with negative := true }
  | _ => unsigned? s

/-- The natural number below a limit that an integer numeral denotes; a minus sign is refused, also
before zero. -/
def natural? (limit : Nat) (n : Numeral) : Option Nat :=
  if !n.negative ∧ n.fraction = [] ∧ n.power? = none ∧ digitsValue n.whole < limit then
    some (digitsValue n.whole)
  else none

/-- The exponent as it is written, zero where there is none. -/
def shift (n : Numeral) : Int :=
  match n.power? with
  | none => 0
  | some p => p.value

/-- The number of the digits without the point. -/
def digits (n : Numeral) : Nat := digitsValue (n.whole ++ n.fraction)

/-- The power of ten of the last digit. -/
def exponent (n : Numeral) : Int := n.shift - n.fraction.length

/-- The floating-point number nearest to the value. Numbers of TOML texts are read so, those of JSON
texts with several roundings. -/
def toFloat (n : Numeral) : Float :=
  let x := nearest n.digits n.exponent
  if n.negative then -x else x

/-- The nearest floating-point number unless it is infinite. -/
def finite? (n : Numeral) : Option Float :=
  if n.toFloat.isFinite then some n.toFloat else none

end Numeral

end PlanFeedback.Decimal
