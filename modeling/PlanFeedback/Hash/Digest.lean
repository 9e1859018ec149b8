import PlanFeedback.Hash.Blake3
import PlanFeedback.Text.Ascii

/-!
Digests of 128 bits, which name normalised queries in the repository, and their hexadecimal form.
-/
namespace PlanFeedback.Hash

open Text

/-- Sixteen bytes. -/
structure Digest where
  bytes : Bytes
  length_eq : bytes.length = 16
  deriving DecidableEq

namespace Digest

def ofBytes? (bytes : Bytes) : Option Digest :=
  if h : bytes.length = 16 then some ⟨bytes, h⟩ else none

/-- The first half of the hash of a text. -/
def ofText (s : String) : Digest :=
  ⟨(Blake3.hash (utf8 s)).take 16, by simp [Blake3.hash_length]⟩

/-- Thirty-two lower-case hexadecimal digits. -/
def toHex (d : Digest) : String := Text.toHex d.bytes

/-- The byte that a pair of characters spells: two hexadecimal digits, or a plus sign and one. -/
def byteOfPair? (a b : Char) : Option UInt8 := do
  let high ← if a = '+' then some 0 else hexValue? a
  let low ← hexValue? b
  return UInt8.ofNat (high * 16 + low)

def bytesOfPairs? : List Char → Option Bytes
  | [] => some []
  | [_] => none
  | a :: b :: rest => do return (← byteOfPair? a b) :: (← bytesOfPairs? rest)

/-- Reads thirty-two characters as sixteen pairs. -/
def ofHex? (s : String) : Option Digest :=
  (bytesOfPairs? s.toList).bind ofBytes?

end Digest

end PlanFeedback.Hash
