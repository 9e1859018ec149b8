import PlanFeedback.Decimal.Binary

/-!
The shortest decimal that reads back as a given binary number. A decimal reads back when it lies
among the reals that round to the number, whose ends belong to them if the mantissa is even. Grids
of multiples of a power of ten are tried from coarse to fine, and of two points on one grid the
nearer one is taken.
-/
namespace PlanFeedback.Decimal

/-- The value `digits * 10 ^ exponent`. -/
structure Scientific where
  digits : Nat
  exponent : Int
  deriving DecidableEq, Repr

/-- Which of two equally near decimals is taken. -/
inductive Tie where
  | toEven
  | up
  deriving DecidableEq, Repr

def powerOfTen : Int → Nat
  | .ofNat e => Nat.pow 10 e
  | .negSucc _ => 1

/-- The reals that round to a number, as three numerators over one denominator. -/
structure Interval where
  low : Nat
  value : Nat
  high : Nat
  denominator : Nat
  closed : Bool

namespace Interval

/-- The interval of a number, in units of a quarter of its last place. -/
def ofBinary (b : Binary) : Interval :=
  let low := 4 * b.mantissa - if b.narrow then 1 else 2
  let value := 4 * b.mantissa
  let high := 4 * b.mantissa + 2
  let closed := b.mantissa % 2 = 0
  match b.exponent - 2 with
  | .ofNat e => ⟨low * Nat.pow 2 e, value * Nat.pow 2 e, high * Nat.pow 2 e, 1, closed⟩
  | .negSucc e => ⟨low, value, high, Nat.pow 2 (e + 1), closed⟩

/-- The interval measured in units of a power of ten. -/
def scale (i : Interval) (exponent : Int) : Interval :=
  let down := powerOfTen (-exponent)
  { i with
    low := i.low * down
    value := i.value * down
    high := i.high * down
    denominator := i.denominator * powerOfTen exponent }

def contains (i : Interval) (n : Nat) : Bool :=
  let n := n * i.denominator
  if i.closed then i.low ≤ n && n ≤ i.high else i.low < n && n < i.high

/-- The integer of the interval that is nearest to the value, if it contains one. -/
def nearestInteger? (tie : Tie) (i : Interval) : Option Nat :=
  let floor := i.value / i.denominator
  let twice := 2 * (i.value % i.denominator)
  match i.contains floor, i.contains (floor + 1) with
  | false, false => none
  | true, false => some floor
  | false, true => some (floor + 1)
  | true, true =>
    if twice < i.denominator then some floor
    else if i.denominator < twice then some (floor + 1)
    else
      match tie with
      | .up => some (floor + 1)
      | .toEven => some (if floor % 2 = 0 then floor else floor + 1)

end Interval

def exact (b : Binary) : Scientific :=
  match b.exponent with
  | .ofNat e => ⟨b.mantissa * Nat.pow 2 e, 0⟩
  | .negSucc e => ⟨b.mantissa * Nat.pow 5 (e + 1), .negSucc e⟩

/-- Tries `count` grids from the one of the given exponent downwards, and then gives up for the
exact decimal. -/
def searchFrom (tie : Tie) (b : Binary) : (count : Nat) → (exponent : Int) → Scientific
  | 0, _ => exact b
  | count + 1, e =>
    match ((Interval.ofBinary b).scale e).nearestInteger? tie with
    | some digits => ⟨digits, e⟩
    | none => searchFrom tie b count (e - 1)

/-- An exponent of a power of ten above the number: 30103 / 100000 exceeds the logarithm of two. -/
def ceiling (b : Binary) : Int :=
  (Nat.log2 b.mantissa + 1 + b.exponent) * 30103 / 100000 + 1

/-- The shortest decimal that reads back, zero for zero. -/
def shortest (tie : Tie) (b : Binary) : Scientific :=
  if b.mantissa = 0 then ⟨0, 0⟩ else searchFrom tie b 25 (ceiling b)

end PlanFeedback.Decimal
