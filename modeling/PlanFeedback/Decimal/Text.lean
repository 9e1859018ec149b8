import PlanFeedback.Decimal.Numeral
import PlanFeedback.Decimal.Shortest

/-!
Texts of floating-point numbers: the shortest digits in positional notation, the same with an
exponent where the number is very large or very small, and a fixed number of places.
-/
namespace PlanFeedback.Decimal

def sign (negative : Bool) : String := if negative then "-" else ""

/-- The number of digits before the point. -/
def Scientific.wholeLength (s : Scientific) : Int :=
  (digitChars s.digits).length + s.exponent

/-- A numeral with the point after the first `n` of the digits; a negative `n` puts zeros between
the point and the digits. -/
def positional (negative : Bool) (digits : List Char) (n : Int) : Numeral :=
  match n with
  | .ofNat 0 => { negative, whole := ['0'], fraction := digits }
  | .ofNat n =>
    let zeros := List.replicate (n - digits.length) '0'
    { negative, whole := digits.take n ++ zeros, fraction := digits.drop n }
  | .negSucc z =>
    { negative, whole := ['0'], fraction := List.replicate (z + 1) '0' ++ digits }

def zeroNumeral (negative : Bool) : Numeral := { negative, whole := ['0'] }

/-- The numeral of the shortest digits in positional notation. -/
def plainNumeral (negative : Bool) (b : Binary) : Numeral :=
  if b.mantissa = 0 then zeroNumeral negative
  else
    let s := shortest .up b
    positional negative (digitChars s.digits) s.wholeLength

/-- The shortest digits, never with an exponent. -/
def plain (x : Float) : String :=
  match sort x with
  | .nan => "NaN"
  | .infinite negative => sign negative ++ "inf"
  | .finite negative b => String.ofList (plainNumeral negative b).text

/-- Puts a zero after the point where there is no fraction. -/
def Numeral.withFraction (n : Numeral) : Numeral :=
  if n.fraction = [] then { n with fraction := ['0'] } else n

/-- The numeral of a finite number in a record: positional with at least one decimal from 1e-5 up
to below 1e16, else with one digit before the point and an exponent. -/
def recordNumeral (negative : Bool) (b : Binary) : Numeral :=
  if b.mantissa = 0 then (zeroNumeral negative).withFraction
  else
    let s := shortest .toEven b
    let digits := digitChars s.digits
    let n := s.wholeLength
    if -4 ≤ n ∧ n ≤ 16 then (positional negative digits n).withFraction
    else
      { positional negative digits 1 with
        power? := some ⟨n - 1 < 0, digitChars (n - 1).natAbs⟩ }

/-- The numeral of a number in a record; only finite numbers have one. -/
def recordNumeral? (x : Float) : Option Numeral :=
  match sort x with
  | .nan => none
  | .infinite _ => none
  | .finite negative b => some (recordNumeral negative b)

/-- A quotient rounded to the nearest integer, a half to the even neighbour. -/
def roundHalfEven (n d : Nat) : Nat :=
  let q := n / d
  let twice := 2 * (n % d)
  if twice < d ∨ (twice = d ∧ q % 2 = 0) then q else q + 1

/-- A magnitude in units of the last of some decimal places. -/
def Binary.rounded (b : Binary) (places : Nat) : Nat :=
  match b.exponent with
  | .ofNat e => b.mantissa * Nat.pow 2 e * Nat.pow 10 places
  | .negSucc e => roundHalfEven (b.mantissa * Nat.pow 10 places) (Nat.pow 2 (e + 1))

def fixedNumeral (places : Nat) (negative : Bool) (b : Binary) : Numeral :=
  let n := b.rounded places
  let digits := digitChars (n % Nat.pow 10 places)
  { negative
    whole := digitChars (n / Nat.pow 10 places)
    fraction :=
      if places = 0 then [] else List.replicate (places - digits.length) '0' ++ digits }

/-- A fixed number of decimal places. The sign stays when nothing else is left. -/
def fixed (places : Nat) (x : Float) : String :=
  match sort x with
  | .nan => "NaN"
  | .infinite negative => sign negative ++ "inf"
  | .finite negative b => String.ofList (fixedNumeral places negative b).text

end PlanFeedback.Decimal
