import PlanFeedback.Text.Blank
import PlanFeedback.Time.Instant

/-!
Instants as text after RFC 3339. Writing gives the form with `Z` and none, three, six or nine
decimals of a second. Reading is lenient: blanks may stand between the parts, a blank may part the
date from the time, an offset may lack its colon, and `UTC` is an offset of zero.
-/
namespace PlanFeedback.Time

open Text (isBlank)

/-! Writing. -/

/-- A number with zeros before it up to a width. -/
def padded (width n : Nat) : List Char :=
  let digits := Nat.toDigits 10 n
  List.replicate (width - digits.length) '0' ++ digits

/-- Years of four digits are plain, others have a sign and at least four digits. -/
def yearText (year : Int) : List Char :=
  if 0 ≤ year ∧ year ≤ 9999 then padded 4 year.toNat
  else (if year < 0 then '-' else '+') :: padded 4 year.natAbs

def fractionText (nanosecond : Nat) : List Char :=
  if nanosecond = 0 then []
  else if nanosecond % 1000000 = 0 then '.' :: padded 3 (nanosecond / 1000000)
  else if nanosecond % 1000 = 0 then '.' :: padded 6 (nanosecond / 1000)
  else '.' :: padded 9 nanosecond

def Date.text (d : Date) : List Char :=
  yearText d.year ++ '-' :: padded 2 d.month ++ '-' :: padded 2 d.day

def Instant.text (i : Instant) : String :=
  let leap := i.nanosecond / 1000000000
  let time :=
    padded 2 (i.second / 3600) ++ ':' :: padded 2 (i.second / 60 % 60) ++
      ':' :: padded 2 (i.second % 60 + leap) ++ fractionText (i.nanosecond % 1000000000)
  String.ofList ((Date.ofDays i.day).text ++ 'T' :: time ++ ['Z'])

/-! Reading. Each reader gives what it read and the rest. -/

abbrev Chars := List Char

def skipBlanks (s : Chars) : Chars := s.dropWhile isBlank

/-- The number that the first digits denote, at least one and at most `width` of them. -/
def number? (width? : Option Nat) (s : Chars) : Option (Nat × Chars) :=
  let run := s.takeWhile Char.isDigit
  let digits := match width? with
    | some width => run.take width
    | none => run
  if digits = [] then none
  else
    some (digits.foldl (fun n c => 10 * n + (c.toNat - '0'.toNat)) 0, s.drop digits.length)

/-- A number of at most two digits within bounds, after blanks. -/
def field? (least most : Nat) (s : Chars) : Option (Nat × Chars) := do
  let (n, rest) ← number? (some 2) (skipBlanks s)
  if least ≤ n ∧ n ≤ most then some (n, rest) else none

def mark? (c : Char) (s : Chars) : Option Chars :=
  match skipBlanks s with
  | d :: rest => if d = c then some rest else none
  | [] => none

/-- A year: four digits at most, or any number of them after a sign. -/
def year? (s : Chars) : Option (Int × Chars) := do
  let (year, rest) ← match skipBlanks s with
    | '-' :: rest => (number? none rest).map fun r => (-(r.1 : Int), r.2)
    | '+' :: rest => (number? none rest).map fun r => ((r.1 : Int), r.2)
    | plain => (number? (some 4) plain).map fun r => ((r.1 : Int), r.2)
  if isYear year then some (year, rest) else none

def date? (s : Chars) : Option (Date × Chars) := do
  let (year, s) ← year? s
  let (month, s) ← field? 1 12 (← mark? '-' s)
  let (day, s) ← field? 1 31 (← mark? '-' s)
  let date : Date := ⟨year, month, day⟩
  if date.isValid then some (date, s) else none

/-- Decimals of a second; digits after the ninth are passed over. -/
def nanosecond? (s : Chars) : Option (Nat × Chars) :=
  match s with
  | '.' :: rest => do
    let (n, after) ← number? (some 9) rest
    return (n * Nat.pow 10 (9 - (rest.length - after.length)), after.dropWhile Char.isDigit)
  | _ => some (0, s)

/-- A time of the day, as a second and a nanosecond; the sixtieth second is a leap second. -/
def time? (s : Chars) : Option ((Nat × Nat) × Chars) := do
  let (hour, s) ← field? 0 23 s
  let (minute, s) ← field? 0 59 (← mark? ':' s)
  let (second, s) ← field? 0 60 (← mark? ':' s)
  let (nanosecond, s) ← nanosecond? s
  let base := hour * 3600 + minute * 60
  return (if second = 60 then (base + 59, nanosecond + 1000000000) else (base + second, nanosecond), s)

def twoDigits? : Chars → Option (Nat × Chars)
  | a :: b :: rest =>
    if a.isDigit ∧ b.isDigit then
      some (10 * (a.toNat - '0'.toNat) + (b.toNat - '0'.toNat), rest)
    else none
  | _ => none

/-- The seconds after a sign: hours below a day, blanks or colons, minutes. -/
def offsetSize? (s : Chars) : Option (Nat × Chars) := do
  let (hours, s) ← twoDigits? s
  let (minutes, s) ← twoDigits? (s.dropWhile fun c => c == ':' || isBlank c)
  if minutes < 60 ∧ hours < 24 then some (hours * 3600 + minutes * 60, s) else none

def offset? (s : Chars) : Option (Int × Chars) :=
  match s with
  | [] => none
  | c :: rest =>
    if c = 'Z' ∨ c = 'z' then some (0, rest)
    else if (s.take 3).map Char.toUpper = ['U', 'T', 'C'] then some (0, s.drop 3)
    else if c = '+' then (offsetSize? rest).map fun r => ((r.1 : Int), r.2)
    else if c = '-' ∨ c = '−' then (offsetSize? rest).map fun r => (-(r.1 : Int), r.2)
    else none

/-- Reads an instant with its date, its time and its offset. The year may not leave its range by the
offset. -/
def Instant.ofText? (text : String) : Option Instant := do
  let (date, s) ← date? text.toList
  let s ← match s with
    | c :: rest => if c = 'T' ∨ c = 't' ∨ c = ' ' then some rest else none
    | [] => none
  let ((second, nanosecond), s) ← time? s
  let (offset, s) ← offset? (skipBlanks s)
  let seconds := date.toDays * 86400 + second - offset
  let day := seconds / 86400
  if skipBlanks s = [] ∧ isYear (Date.ofDays day).year then
    some ⟨day, (seconds % 86400).toNat, nanosecond⟩
  else none

end PlanFeedback.Time
