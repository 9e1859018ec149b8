import PlanFeedback.Decimal.Numeral

/-!
Numbers of JSON texts as floating-point numbers. The digits are gathered into a significand of 64
bits and an exponent, and the significand is multiplied or divided by a power of ten. Each of these
steps rounds, so that the result may be a neighbour of the number nearest to the numeral.
-/
namespace PlanFeedback.Json

open Decimal (Numeral)

/-- What has been gathered of a numeral, `significand * 10 ^ exponent`. -/
structure Parts where
  significand : UInt64
  exponent : Int
  deriving DecidableEq, Repr

namespace Parts

/-- The significand with one more digit at its end. -/
def next (p : Parts) (c : Char) : Nat := 10 * p.significand.toNat + (c.toNat - '0'.toNat)

def fits (p : Parts) (c : Char) : Bool := p.next c < 0x10000000000000000

/-- The digits before the point. From the first one that does not fit they count as places only. -/
def whole (p : Parts) : List Char → Parts
  | [] => p
  | c :: rest =>
    if p.fits c then whole ⟨UInt64.ofNat (p.next c), p.exponent⟩ rest
    else ⟨p.significand, p.exponent + (rest.length + 1)⟩

/-- The digits after the point, up to the first one that does not fit. -/
def fraction (p : Parts) : List Char → Parts
  | [] => p
  | c :: rest =>
    if p.fits c then fraction ⟨UInt64.ofNat (p.next c), p.exponent - 1⟩ rest else p

def ofNumeral (n : Numeral) : Parts :=
  let p := (whole ⟨0, 0⟩ n.whole).fraction n.fraction
  ⟨p.significand, p.exponent + n.shift⟩

end Parts

def powerOfTen (k : Nat) : Float := Float.ofScientific 1 false k

/-- Divides by the greatest power of ten `count` times, or until nothing is left. -/
def shrink : (count : Nat) → Float → Float
  | 0, x => x
  | count + 1, x => if x == 0 then x else shrink count (x / powerOfTen 308)

/-- The number that the parts stand for, unless it is too large. There are powers of ten up to
the 308th. -/
def Parts.float? (p : Parts) : Option Float :=
  if p.significand = 0 then some 0
  else
    match p.exponent with
    | .ofNat e =>
      let x := p.significand.toFloat * powerOfTen e
      if e ≤ 308 ∧ x.isFinite then some x else none
    | .negSucc e => some (shrink (e / 308) p.significand.toFloat / powerOfTen (e % 308 + 1))

def floatOf? (n : Numeral) : Option Float :=
  (Parts.ofNumeral n).float?.map fun x => if n.negative then -x else x

end PlanFeedback.Json
