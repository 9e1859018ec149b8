/-!
Text as bytes. Offsets and lengths count bytes of the UTF-8 form, so a text is read as a list of
bytes wherever a position matters. A position is a character boundary when it is an end of the text
or the byte there starts a character.
-/
namespace PlanFeedback.Text

abbrev Bytes := List UInt8

def utf8 (s : String) : Bytes :=
  s.toList.flatMap String.utf8EncodeChar

/-- A byte that continues a character, `10xxxxxx`. -/
def isContinuation (b : UInt8) : Bool :=
  0x80 ≤ b && b < 0xC0

/-- Position `i` lies between two characters of a well-formed text. -/
def isBoundary (text : Bytes) (i : Nat) : Bool :=
  match text.drop i with
  | [] => i ≤ text.length
  | b :: _ => !isContinuation b

/-- The bytes from `start` up to `stop`. -/
def slice (text : Bytes) (start stop : Nat) : Bytes :=
  (text.drop start).take (stop - start)

/-- The slice of a text between two character boundaries, if they are such and in order. -/
def slice? (text : Bytes) (start stop : Nat) : Option Bytes :=
  if start ≤ stop ∧ isBoundary text start ∧ isBoundary text stop then some (slice text start stop)
  else none

/-- The six payload bits of a continuation byte. -/
def continuation? (b : UInt8) : Option Nat :=
  if isContinuation b then some (b.toNat - 0x80) else none

/-- A scalar value that needs at least the given number: overlong forms and surrogates are refused. -/
def scalar? (least n : Nat) : Option Char :=
  if least ≤ n ∧ n.isValidChar then some (Char.ofNat n) else none

/-- A number that goes on with the payloads of the next bytes. -/
def continued? (n : Nat) : (count : Nat) → Bytes → Option Nat
  | 0, _ => some n
  | count + 1, b :: rest => do continued? (n * 64 + (← continuation? b)) count rest
  | _ + 1, [] => none

/-- The character that starts with a byte and goes on with the bytes after it. -/
def character? (a : UInt8) (rest : Bytes) : Option Char :=
  if a < 0x80 then some (Char.ofNat a.toNat)
  else if a < 0xC0 then none
  else if a < 0xE0 then (continued? (a.toNat - 0xC0) 1 rest).bind (scalar? 0x80)
  else if a < 0xF0 then (continued? (a.toNat - 0xE0) 2 rest).bind (scalar? 0x800)
  else (continued? (a.toNat - 0xF0) 3 rest).bind (scalar? 0x10000)

/-- The characters of bytes, of which the first ones have been read already. A byte that belongs to
no character gives none. -/
def charactersFrom : (read : Nat) → Bytes → List (Option Char)
  | _, [] => []
  | read + 1, _ :: rest => charactersFrom read rest
  | 0, a :: rest =>
    match character? a rest with
    | some c => some c :: charactersFrom (c.utf8Size - 1) rest
    | none => none :: charactersFrom 0 rest

def characters (bytes : Bytes) : List (Option Char) := charactersFrom 0 bytes

def decode? (bytes : Bytes) : Option (List Char) := (characters bytes).mapM id

/-- The text whose UTF-8 form is given, if the bytes are well formed. -/
def ofUtf8? (bytes : Bytes) : Option String :=
  (decode? bytes).map String.ofList

/-- The text of bytes that are known to be well formed, as slices on character boundaries are. -/
def ofUtf8 (bytes : Bytes) : String :=
  (ofUtf8? bytes).getD ""

end PlanFeedback.Text
