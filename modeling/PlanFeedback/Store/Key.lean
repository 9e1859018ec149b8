import PlanFeedback.Text.Utf8

/-!
The keys of the tables. Ids are eight bytes, most significant first, so that rows lie in the order
of their ids.
-/
namespace PlanFeedback.Store

open Text (Bytes utf8)

/-- The `width` lowest bytes of a number, most significant first. -/
def bigEndian : (width : Nat) → Nat → Bytes
  | 0, _ => []
  | width + 1, n => bigEndian width (n / 256) ++ [UInt8.ofNat n]

/-- The number that bytes denote, most significant first. -/
def ofBigEndian (bytes : Bytes) : Nat :=
  bytes.foldl (fun n b => 256 * n + b.toNat) 0

/-- A number of 64 bits. -/
def wordBytes (n : Nat) : Bytes := bigEndian 8 n

def historyKey (id : Nat) : Bytes := wordBytes id

/-- The key of an entry of a text log: the key of the query, a slash, the id. -/
def textKey (queryKey : String) (id : Nat) : Bytes :=
  utf8 queryKey ++ 0x2F :: wordBytes id

/-- The least and the greatest key of the entries of a query. -/
def textKeyRange (queryKey : String) : Bytes × Bytes :=
  (textKey queryKey 0, textKey queryKey 0xFFFFFFFFFFFFFFFF)

/-- The key of active hints: the length of the query, the query, the client. -/
def hintKey (normalized client : String) : Bytes :=
  wordBytes (utf8 normalized).length ++ utf8 normalized ++ utf8 client

end PlanFeedback.Store
