import PlanFeedback.Text.Utf8

/-!
MurmurHash2, the 32-bit hash behind query ids and plan ids. The words of the input, least
significant byte first, are scrambled and folded into the state; a tail of one to three bytes and a
final mix follow.
-/
namespace PlanFeedback.Hash.Murmur

open Text (Bytes)

def multiplier : UInt32 := 0x5bd1e995

/-- The word of four bytes, least significant first. -/
def word (a b c d : UInt8) : UInt32 :=
  a.toUInt32 ||| b.toUInt32 <<< 8 ||| c.toUInt32 <<< 16 ||| d.toUInt32 <<< 24

def scramble (k : UInt32) : UInt32 :=
  let k := k * multiplier
  (k ^^^ k >>> 24) * multiplier

def absorb (h k : UInt32) : UInt32 :=
  h * multiplier ^^^ scramble k

/-- Takes the bytes after the last full word into the state. -/
def absorbTail (h : UInt32) : Bytes → UInt32
  | [] => h
  | [a] => (h ^^^ word a 0 0 0) * multiplier
  | [a, b] => (h ^^^ word a b 0 0) * multiplier
  | a :: b :: c :: _ => (h ^^^ word a b c 0) * multiplier

/-- Takes whole words first and then the tail. -/
def absorbAll (h : UInt32) : Bytes → UInt32
  | a :: b :: c :: d :: rest => absorbAll (absorb h (word a b c d)) rest
  | tail => absorbTail h tail

def finish (h : UInt32) : UInt32 :=
  let h := (h ^^^ h >>> 13) * multiplier
  h ^^^ h >>> 15

/-- The hash of a byte string under a seed. The length enters modulo 2^32. -/
def hash (seed : UInt32) (data : Bytes) : UInt32 :=
  finish (absorbAll (seed ^^^ UInt32.ofNat data.length) data)

/-- The id of a text: its hash under the seed zero. -/
def textId (s : String) : UInt32 := hash 0 (Text.utf8 s)

end PlanFeedback.Hash.Murmur
