/-!
Finite binary floating-point numbers as exact multiples of powers of two, and decimals read as the
nearest of them.
-/
namespace PlanFeedback.Decimal

/-- The magnitude `mantissa * 2 ^ exponent`. The gap to the next smaller number is half as wide as
the one above when `narrow` holds, at the powers of two. -/
structure Binary where
  mantissa : Nat
  exponent : Int
  narrow : Bool
  deriving DecidableEq, Repr

inductive Sort64 where
  | nan
  | infinite (negative : Bool)
  | finite (negative : Bool) (magnitude : Binary)
  deriving DecidableEq, Repr

/-- The fields of a 64-bit pattern: a sign, eleven bits of exponent and fifty-two of fraction. -/
def sortOfBits (bits : UInt64) : Sort64 :=
  let n := bits.toNat
  let negative := 0x8000000000000000 ≤ n
  let biased : Nat := n / 0x10000000000000 % 0x800
  let fraction : Nat := n % 0x10000000000000
  if biased = 2047 then
    if fraction = 0 then .infinite negative else .nan
  else if biased = 0 then .finite negative ⟨fraction, -1074, false⟩
  else .finite negative ⟨0x10000000000000 + fraction, (biased : Int) - 1075, fraction = 0 ∧ 1 < biased⟩

def sort (x : Float) : Sort64 := sortOfBits x.toBits

/-- The number nearest to `digits * 10 ^ exponent`; exponents far out of range are settled by their
size alone. -/
def nearest (digits : Nat) (exponent : Int) : Float :=
  let size : Int := Nat.log2 digits / 3 + exponent
  if digits = 0 ∨ size < -400 then 0
  else if 400 < exponent then 1 / 0
  else
    match exponent with
    | .ofNat e => Float.ofScientific digits false e
    | .negSucc e => Float.ofScientific digits true (e + 1)

end PlanFeedback.Decimal
