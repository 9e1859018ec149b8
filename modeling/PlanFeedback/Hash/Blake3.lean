import PlanFeedback.Text.Utf8

/-!
BLAKE3 with a 32-byte result. The input is cut into chunks of 1024 bytes, a chunk into blocks of 64
bytes chained by the compression function; the chunks are the leaves of a binary tree whose left
subtrees hold a power of two of them, and the root compression gives the hash.
-/
namespace PlanFeedback.Hash.Blake3

open Text (Bytes)

abbrev Key := Vector UInt32 8

abbrev Block := Vector UInt32 16

def iv : Key :=
  #v[0x6A09E667, 0xBB67AE85, 0x3C6EF372, 0xA54FF53A, 0x510E527F, 0x9B05688C, 0x1F83D9AB,
    0x5BE0CD19]

def chunkStart : UInt32 := 1
def chunkEnd : UInt32 := 2
def parent : UInt32 := 4
def root : UInt32 := 8

def rotateRight (x : UInt32) (n : UInt32) : UInt32 := x >>> n ||| x <<< (32 - n)

/-- Mixes two message words into a column or a diagonal of the state. -/
def mix (v : Block) (a b c d : Fin 16) (x y : UInt32) : Block :=
  let v := v.set a (v[a] + v[b] + x)
  let v := v.set d (rotateRight (v[d] ^^^ v[a]) 16)
  let v := v.set c (v[c] + v[d])
  let v := v.set b (rotateRight (v[b] ^^^ v[c]) 12)
  let v := v.set a (v[a] + v[b] + y)
  let v := v.set d (rotateRight (v[d] ^^^ v[a]) 8)
  let v := v.set c (v[c] + v[d])
  v.set b (rotateRight (v[b] ^^^ v[c]) 7)

/-- One round: the four columns, then the four diagonals. -/
def round (v m : Block) : Block :=
  let v := mix v 0 4 8 12 m[0] m[1]
  let v := mix v 1 5 9 13 m[2] m[3]
  let v := mix v 2 6 10 14 m[4] m[5]
  let v := mix v 3 7 11 15 m[6] m[7]
  let v := mix v 0 5 10 15 m[8] m[9]
  let v := mix v 1 6 11 12 m[10] m[11]
  let v := mix v 2 7 8 13 m[12] m[13]
  mix v 3 4 9 14 m[14] m[15]

/-- The order of the message words in the next round. -/
def permute (m : Block) : Block :=
  #v[m[2], m[6], m[3], m[10], m[7], m[0], m[4], m[13], m[1], m[11], m[12], m[5], m[9], m[14],
    m[15], m[8]]

def rounds : Nat → Block → Block → Block
  | 0, v, _ => v
  | n + 1, v, m => rounds n (round v m) (permute m)

/-- What a node compresses: its key, block, chunk number, block length and flags. -/
structure Output where
  key : Key
  block : Block
  counter : Nat
  length : Nat
  flags : UInt32

/-- The first half of the compression, which is the chaining value. -/
def Output.chain (o : Output) (extra : UInt32) : Key :=
  let k := o.key
  let low := UInt32.ofNat o.counter
  let high := UInt32.ofNat (o.counter / 0x100000000)
  let v := rounds 7
    #v[k[0], k[1], k[2], k[3], k[4], k[5], k[6], k[7], iv[0], iv[1], iv[2], iv[3], low, high,
      UInt32.ofNat o.length, o.flags ||| extra] o.block
  #v[v[0] ^^^ v[8], v[1] ^^^ v[9], v[2] ^^^ v[10], v[3] ^^^ v[11], v[4] ^^^ v[12], v[5] ^^^ v[13],
    v[6] ^^^ v[14], v[7] ^^^ v[15]]

/-- The little-endian word at index `i` of a block, zero past its end. -/
def wordAt (bytes : Bytes) (i : Nat) : UInt32 :=
  let byte (j : Nat) : UInt32 := (bytes.getD (4 * i + j) 0).toUInt32
  byte 0 ||| byte 1 <<< 8 ||| byte 2 <<< 16 ||| byte 3 <<< 24

def blockOf (bytes : Bytes) : Block :=
  Vector.ofFn fun i => wordAt bytes i

/-- Chains the blocks of a chunk; the last one is left to be compressed. -/
def chunk (key : Key) (counter : Nat) (start : UInt32) (bytes : Bytes) : Output :=
  if bytes.length ≤ 64 then
    ⟨key, blockOf bytes, counter, bytes.length, start ||| chunkEnd⟩
  else
    let first : Output := ⟨key, blockOf (bytes.take 64), counter, 64, start⟩
    chunk (first.chain 0) counter 0 (bytes.drop 64)
termination_by bytes.length

/-- The length of the left subtree: the largest power of two of full chunks with bytes left over. -/
def leftLength (n : Nat) : Nat := 1024 * Nat.pow 2 (Nat.log2 ((n - 1) / 1024))

theorem leftLength_pos (n : Nat) : 0 < leftLength n := by
  unfold leftLength
  exact Nat.mul_pos (by decide) (Nat.two_pow_pos _)

theorem leftLength_lt {n : Nat} (h : 1024 < n) : leftLength n < n := by
  unfold leftLength
  have hne : (n - 1) / 1024 ≠ 0 := by omega
  have hle : Nat.pow 2 (Nat.log2 ((n - 1) / 1024)) ≤ (n - 1) / 1024 := Nat.log2_self_le hne
  omega

theorem length_take_left {bytes : Bytes} (h : 1024 < bytes.length) :
    (bytes.take (leftLength bytes.length)).length < bytes.length := by
  rw [List.length_take]
  exact Nat.lt_of_le_of_lt (Nat.min_le_left _ _) (leftLength_lt h)

theorem length_drop_left {bytes : Bytes} (h : 1024 < bytes.length) :
    (bytes.drop (leftLength bytes.length)).length < bytes.length := by
  rw [List.length_drop]
  exact Nat.sub_lt (Nat.lt_trans (by decide) h) (leftLength_pos _)

/-- The tree over the input whose first chunk has the number `counter`. -/
def tree (counter : Nat) (bytes : Bytes) : Output :=
  if _h : bytes.length ≤ 1024 then chunk iv counter chunkStart bytes
  else
    let n := leftLength bytes.length
    let left := (tree counter (bytes.take n)).chain 0
    let right := (tree (counter + n / 1024) (bytes.drop n)).chain 0
    ⟨iv, left ++ right, 0, 64, parent⟩
termination_by bytes.length
decreasing_by
  · exact length_take_left (Nat.lt_of_not_le _h)
  · exact length_drop_left (Nat.lt_of_not_le _h)

/-- The bytes of a word, least significant first. -/
def wordBytes (w : UInt32) : Bytes :=
  [w.toUInt8, (w >>> 8).toUInt8, (w >>> 16).toUInt8, (w >>> 24).toUInt8]

/-- The 32-byte hash of a byte string. -/
def hash (bytes : Bytes) : Bytes :=
  ((tree 0 bytes).chain root).toList.flatMap wordBytes

theorem hash_length (bytes : Bytes) : (hash bytes).length = 32 := by
  simp [hash, wordBytes, List.length_flatMap, List.map_const']

end PlanFeedback.Hash.Blake3
