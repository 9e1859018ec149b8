import PlanFeedback.Json.Number
import PlanFeedback.Json.Parser

/-!
Typed reading of JSON values. A record is an object with known members or an array of its fields in
order; other members are passed over. Values nest no deeper than a limit, which does not bind what
is passed over. Under a tag the whole value is taken in before its sort is known, so that everything
in it has to be readable.
-/
namespace PlanFeedback.Json

/-- What a reader knows of its place: how many levels of nesting are left, and whether the value has
been taken in as a whole before. -/
structure Place where
  depth : Nat
  buffered : Bool := false

/-- Arrays and objects nest at most 127 levels deep. -/
def Place.top : Place := { depth := 127 }

abbrev Reader (α : Type) := Place → Json → Option α

def Place.inside? (p : Place) : Option Place :=
  if p.depth = 0 then none else some { p with depth := p.depth - 1 }

def natural (limit : Nat) : Reader Nat
  | _, .number n => n.natural? limit
  | _, _ => none

/-- Natural numbers of 64 bits. -/
def size : Reader Nat := natural 0x10000000000000000

/-- Natural numbers of 32 bits. -/
def word : Reader UInt32 := fun p v => (natural 0x100000000 p v).map UInt32.ofNat

def byte : Reader UInt8 := fun p v => (natural 0x100 p v).map UInt8.ofNat

def float : Reader Float
  | _, .number n => floatOf? n
  | _, _ => none

def boolean : Reader Bool
  | _, .bool b => some b
  | _, _ => none

def str : Reader String
  | _, .string s => s
  | _, _ => none

def nullable {α : Type} (item : Reader α) : Reader (Option α)
  | _, .null => some none
  | p, v => (item p v).map some

def list {α : Type} (item : Reader α) : Reader (List α)
  | p, .array items => do
    let inside ← p.inside?
    items.mapM (item inside)
  | _, _ => none

/-- The value that stands for nothing: null, or an empty object in a buffered value. -/
def isUnit (buffered : Bool) : Json → Bool
  | .null => true
  | .object [] => buffered
  | _ => false

/-- One of several names, alone or as the only key of an object without content. -/
def choice {α : Type} (names : List (String × α)) : Reader α
  | _, .string (some s) => names.lookup s
  | p, .object [(some s, v)] => if 0 < p.depth ∧ isUnit p.buffered v then names.lookup s else none
  | _, _ => none

/-- The fields that a record gives, and the place of their values. -/
structure Fields where
  place : Place
  given : List (String × Json)

/-- The known members of an object. A known name may occur once, and every key has a text. -/
def knownMembers (names : List String) : List (Text × Json) → Option (List (String × Json))
  | [] => some []
  | (none, _) :: _ => none
  | (some key, v) :: rest => do
    let given ← knownMembers names rest
    if names.contains key then
      if (given.lookup key).isSome then none else some ((key, v) :: given)
    else some given

/-- The fields of a record whose fields have the given names. -/
def fields (names : List String) : Reader Fields
  | p, .object members => do
    return ⟨← p.inside?, ← knownMembers names members⟩
  | p, .array items => do
    let inside ← p.inside?
    if items.length ≤ names.length then some ⟨inside, names.zip items⟩ else none
  | _, _ => none

namespace Fields

def required {α : Type} (f : Fields) (name : String) (item : Reader α) : Option α :=
  (f.given.lookup name).bind (item f.place)

def withDefault {α : Type} (f : Fields) (name : String) (item : Reader α) (default : α) :
    Option α :=
  match f.given.lookup name with
  | none => some default
  | some v => item f.place v

end Fields

mutual

/-- Everything in the value can be read: its strings have a text, its numbers are not too large, and
it nests no deeper than the given number of levels. -/
def fits (depth : Nat) : Json → Bool
  | .null => true
  | .bool _ => true
  | .number n => (floatOf? n).isSome
  | .string s => s.isSome
  | .array items => 0 < depth && fitItems (depth - 1) items
  | .object members => 0 < depth && fitMembers (depth - 1) members

def fitItems (depth : Nat) : List Json → Bool
  | [] => true
  | v :: rest => fits depth v && fitItems depth rest

def fitMembers (depth : Nat) : List (Text × Json) → Bool
  | [] => true
  | (key, v) :: rest => key.isSome && fits depth v && fitMembers depth rest

end

/-- The tag of a value: the name of a sort, or its number in a buffered value. -/
def tagIndex? (p : Place) (sorts : List String) : Json → Option Nat
  | .string (some s) => sorts.idxOf? s
  | .number n => if p.buffered then n.natural? sorts.length else none
  | _ => none

/-- Takes the tag out of an object, where it stands once, or off the head of an array. -/
def splitTag? (tag : String) : Json → Option (Json × Json)
  | .object members =>
    match members.filter fun m => m.1 == some tag with
    | [(_, v)] => some (v, .object (members.filter fun m => m.1 != some tag))
    | _ => none
  | .array (v :: rest) => some (v, .array rest)
  | _ => none

/-- The number of the sort that the tag of a value names, and the buffered rest of the value. -/
def tagged (tag : String) (sorts : List String) : Reader (Nat × Place × Json) := fun p v => do
  let (tagValue, rest) ← splitTag? tag v
  let sort ← tagIndex? p sorts tagValue
  if p.buffered || fits p.depth rest then some (sort, { p with buffered := true }, rest) else none

end PlanFeedback.Json
