import Mathlib.Algebra.Group.Nat.Defs
import Mathlib.Order.Basic
import PlanFeedback.Proofs.Numeral
import PlanFeedback.Time.Text

/-!
Instants are read back from their text: dates from the days that they are, numbers of fixed width
from their digits.
-/
namespace PlanFeedback.Time

/-! The calendar. -/

namespace Date

/-- The day of an era of 400 years on which a year of it begins. -/
def startOfYear (year : Int) : Int := year * 365 + year / 4 - year / 100

/-- The last day of a year of an era, which is a day later in the last year. -/
def endOfYear (year : Int) : Int := if year = 399 then 146096 else startOfYear (year + 1) - 1

/-- The days of an era without the leap days before them. -/
def commonDays (day : Int) : Int := day - day / 1460 + day / 36524 - day / 146096

theorem commonDays_mono {a b : Int} (h : a ≤ b) : commonDays a ≤ commonDays b := by
  rw [commonDays, commonDays]
  omega

theorem commonDays_year (year : Int) (hlow : 0 ≤ year) (hhigh : year < 400) :
    year * 365 ≤ commonDays (startOfYear year) ∧
      commonDays (endOfYear year) < (year + 1) * 365 := by
  have hall : ∀ y : Fin 400, (y.val : Int) * 365 ≤ commonDays (startOfYear y.val) ∧
      commonDays (endOfYear y.val) < (y.val + 1) * 365 := by
    decide +kernel
  have hyear := hall ⟨year.toNat, by omega⟩
  simp only [Int.toNat_of_nonneg hlow] at hyear
  exact hyear

theorem year_bounds (day : Int) (hlow : 0 ≤ day) (hhigh : day < 146097) :
    0 ≤ commonDays day / 365 ∧ commonDays day / 365 < 400 ∧
      startOfYear (commonDays day / 365) ≤ day ∧ day ≤ endOfYear (commonDays day / 365) := by
  have hfirst : commonDays 0 ≤ commonDays day := commonDays_mono hlow
  have hlast : commonDays day ≤ commonDays 146096 := commonDays_mono (by omega)
  have hzero : commonDays 0 = 0 := by decide
  have hmost : commonDays 146096 = 145999 := by decide
  obtain ⟨year, hyear⟩ : ∃ year, year = commonDays day / 365 := ⟨_, rfl⟩
  rw [← hyear]
  refine ⟨by omega, by omega, ?_, ?_⟩
  · by_contra hlt
    have hpos : 0 < year := by
      by_contra hle
      obtain rfl : year = 0 := by omega
      exact hlt hlow
    have hbefore := (commonDays_year (year - 1) (by omega) (by omega)).2
    have hend : day ≤ endOfYear (year - 1) := by
      rw [endOfYear, if_neg (by omega), Int.sub_add_cancel]
      omega
    have := commonDays_mono hend
    omega
  · by_contra hlt
    have hne : year ≠ 399 := by
      rintro rfl
      exact hlt (by rw [endOfYear, if_pos rfl]; omega)
    rw [endOfYear, if_neg hne] at hlt
    have hafter := (commonDays_year (year + 1) (by omega) (by omega)).1
    have hstart : startOfYear (year + 1) ≤ day := by omega
    have := commonDays_mono hstart
    omega

/-- The month, counted from March, and the day of the month of a day of the year. -/
theorem month_bounds {day shifted month rest : Nat} (h : day < 366)
    (hshifted : shifted = (5 * day + 2) / 153)
    (hmonth : month = if shifted < 10 then shifted + 3 else shifted - 9)
    (hrest : rest = day - (153 * shifted + 2) / 5 + 1) :
    (153 * ((month + 9) % 12) + 2) / 5 + rest - 1 = day ∧ 1 ≤ month ∧ month ≤ 12 ∧ 1 ≤ rest ∧
      rest ≤ daysInMonth (if day = 365 then 0 else 1) month := by
  subst hrest hmonth hshifted
  revert day
  decide +kernel

theorem daysInMonth_le (year : Int) (month : Nat) :
    daysInMonth 1 month ≤ daysInMonth year month := by
  have hone : isLeapYear 1 = false := rfl
  rw [daysInMonth, daysInMonth, hone, if_neg Bool.false_ne_true]
  split
  · split <;> omega
  · exact Nat.le_refl _

theorem daysInMonth_leap {year : Int} (h : isLeapYear year = true) (month : Nat) :
    daysInMonth year month = daysInMonth 0 month := by
  have hzero : isLeapYear 0 = true := rfl
  rw [daysInMonth, daysInMonth, h, hzero]

theorem ofDays_spec (days : Int) : (ofDays days).toDays = days ∧ (ofDays days).isValid = true := by
  obtain ⟨era, hera⟩ : ∃ era, era = (days + 719468) / 146097 := ⟨_, rfl⟩
  obtain ⟨day, hday⟩ : ∃ day, day = (days + 719468) % 146097 := ⟨_, rfl⟩
  obtain ⟨hlow, hhigh, hstart, hend⟩ := year_bounds day (by omega) (by omega)
  obtain ⟨year, hyear⟩ : ∃ year, year = commonDays day / 365 := ⟨_, rfl⟩
  obtain ⟨rest, hrest⟩ : ∃ rest, rest = (day - startOfYear year).toNat := ⟨_, rfl⟩
  rw [← hyear] at hlow hhigh hstart hend
  have hlength : rest < 366 := by
    rw [endOfYear, startOfYear] at hend
    rw [startOfYear] at hstart hrest
    split at hend <;> omega
  have hleap : rest = 365 → isLeapYear (year + era * 400 + 1) = true := by
    intro heq
    rw [endOfYear, startOfYear] at hend
    rw [startOfYear] at hstart hrest
    have hfour : (year + era * 400 + 1) % 4 = (year + 1) % 4 := by omega
    have hhundred : (year + era * 400 + 1) % 100 = (year + 1) % 100 := by omega
    have hera : (year + era * 400 + 1) % 400 = (year + 1) % 400 := by omega
    rw [isLeapYear, hfour, hhundred, hera]
    simp only [Bool.and_eq_true, Bool.or_eq_true, beq_iff_eq, bne_iff_ne]
    split at hend
    · omega
    · have hcenturies : year / 100 ≤ (year + 1) / 100 := by omega
      have hdays : 1 + (year + 1) / 100 ≤ (year + 1) / 4 - year / 4 + year / 100 := by omega
      omega
  obtain ⟨shifted, hshifted⟩ : ∃ shifted, shifted = (5 * rest + 2) / 153 := ⟨_, rfl⟩
  obtain ⟨month, hmonth⟩ : ∃ month, month = if shifted < 10 then shifted + 3 else shifted - 9 :=
    ⟨_, rfl⟩
  obtain ⟨last, hrestDay⟩ : ∃ last, last = rest - (153 * shifted + 2) / 5 + 1 := ⟨_, rfl⟩
  have hdate : ofDays days =
      ⟨if month ≤ 2 then year + era * 400 + 1 else year + era * 400, month, last⟩ := by
    have hrest' : (day - (365 * year + year / 4 - year / 100)).toNat = rest := by
      rw [hrest, startOfYear, Int.mul_comm]
    have hyear' : (day - day / 1460 + day / 36524 - day / 146096) / 365 = year := by
      rw [hyear, commonDays]
    rw [ofDays, ← hera, ← hday, hyear', hrest', ← hshifted, ← hmonth, ← hrestDay]
  obtain ⟨hback, hfirst, hlast, hpos, hmost⟩ := month_bounds hlength hshifted hmonth hrestDay
  rw [hdate]
  constructor
  · have hmarch : (if month ≤ 2
        then (if month ≤ 2 then year + era * 400 + 1 else year + era * 400) - 1
        else (if month ≤ 2 then year + era * 400 + 1 else year + era * 400)) =
          year + era * 400 := by
      split <;> omega
    have hdiv : (year + era * 400) / 400 = era := by omega
    have hmod : (year + era * 400) % 400 = year := by omega
    rw [startOfYear] at hrest hstart
    simp only [toDays, hmarch, hback, hdiv, hmod]
    omega
  · have hlast : last ≤
        daysInMonth (if month ≤ 2 then year + era * 400 + 1 else year + era * 400) month := by
      by_cases hlong : rest = 365
      · have hmonth' : month = 2 := by omega
        rw [if_pos hlong] at hmost
        rw [if_pos (by omega), daysInMonth_leap (hleap hlong)]
        exact hmost
      · rw [if_neg hlong] at hmost
        exact Nat.le_trans hmost (daysInMonth_le _ month)
    simp only [isValid, Bool.and_eq_true, decide_eq_true_eq]
    exact ⟨⟨⟨hfirst, by omega⟩, hpos⟩, hlast⟩

end Date

/-! Numbers. -/

theorem isBlank_digit {c : Char} (h : c.isDigit = true) : Text.isBlank c = false := by
  rw [Char.isDigit, Bool.and_eq_true, decide_eq_true_eq, decide_eq_true_eq] at h
  have hlow : 48 ≤ c.toNat := h.1
  have hhigh : c.toNat ≤ 57 := h.2
  simp only [Text.isBlank, Bool.or_eq_false_iff, Bool.and_eq_false_iff, decide_eq_false_iff_not,
    beq_eq_false_iff_ne]
  omega

theorem isDigit_padded {width n : Nat} {c : Char} (h : c ∈ padded width n) : c.isDigit = true := by
  rcases List.mem_append.1 h with h | h
  · exact Decimal.isDigit_replicate h
  · exact Decimal.isDigit_digitChars h

theorem padded_ne_nil (width n : Nat) : padded width n ≠ [] := by
  intro h
  exact Decimal.digitChars_ne_nil n (List.append_eq_nil_iff.1 h).2

theorem length_padded {width n : Nat} (hwidth : 0 < width) (h : n < 10 ^ width) :
    (padded width n).length = width := by
  have hlength := (Nat.length_toDigits_le_iff (by decide : 1 < 10) hwidth).2 h
  rw [padded, List.length_append, List.length_replicate]
  omega

theorem value_padded (width n : Nat) :
    (padded width n).foldl (fun n c => 10 * n + (c.toNat - '0'.toNat)) 0 = n := by
  rw [← Nat.ofDigitChars_eq_foldl, padded, Nat.ofDigitChars_append, Nat.ofDigitChars_replicate_zero,
    Nat.mul_zero, Nat.ofDigitChars_ten_toDigits]

theorem number?_padded {width? : Option Nat} {width n : Nat} {rest : Chars}
    (hwidth : ∀ w ∈ width?, (padded width n).length ≤ w)
    (hrest : ∀ c ∈ rest.head?, c.isDigit = false) :
    number? width? (padded width n ++ rest) = some (n, rest) := by
  have htake : (padded width n ++ rest).takeWhile Char.isDigit = padded width n :=
    Decimal.Numeral.takeWhile_digits (fun c => isDigit_padded) hrest
  cases width? with
  | none =>
      simp only [number?, htake]
      rw [if_neg (padded_ne_nil width n), value_padded, List.drop_left]
  | some w =>
      simp only [number?, htake, List.take_of_length_le (hwidth w rfl)]
      rw [if_neg (padded_ne_nil width n), value_padded, List.drop_left]

theorem skipBlanks_cons {c : Char} (h : Text.isBlank c = false) (rest : Chars) :
    skipBlanks (c :: rest) = c :: rest := by
  rw [skipBlanks, List.dropWhile_cons_of_neg]
  rw [h]
  exact Bool.false_ne_true

theorem skipBlanks_padded (width n : Nat) (rest : Chars) :
    skipBlanks (padded width n ++ rest) = padded width n ++ rest := by
  obtain ⟨c, digits, hc⟩ := List.exists_cons_of_ne_nil (padded_ne_nil width n)
  have hdigit : c.isDigit = true := isDigit_padded (by rw [hc]; exact List.mem_cons_self)
  rw [hc]
  exact skipBlanks_cons (isBlank_digit hdigit) _

theorem field?_padded {least most n : Nat} {rest : Chars} (hleast : least ≤ n) (hmost : n ≤ most)
    (hlt : n < 100) (hrest : ∀ c ∈ rest.head?, c.isDigit = false) :
    field? least most (padded 2 n ++ rest) = some (n, rest) := by
  have hlength : (padded 2 n).length = 2 := length_padded (by decide) hlt
  have hnumber : number? (some 2) (padded 2 n ++ rest) = some (n, rest) := by
    refine number?_padded (fun w hw => ?_) hrest
    obtain rfl := Option.some.inj hw
    exact Nat.le_of_eq hlength
  rw [field?, skipBlanks_padded, hnumber]
  exact if_pos ⟨hleast, hmost⟩

theorem mark?_cons {c : Char} (h : Text.isBlank c = false) (rest : Chars) :
    mark? c (c :: rest) = some rest := by
  rw [mark?, skipBlanks_cons h]
  exact if_pos rfl

/-! Dates. -/

theorem year?_yearText {year : Int} (h : isYear year = true) (rest : Chars) :
    year? (yearText year ++ '-' :: rest) = some (year, '-' :: rest) := by
  have hrest : ∀ c ∈ ('-' :: rest).head?, c.isDigit = false := by
    rintro c ⟨⟩
    rfl
  rw [yearText]
  split
  · rename_i hplain
    have hlength : (padded 4 year.toNat).length = 4 := length_padded (by decide) (by omega)
    have hnumber : number? (some 4) (padded 4 year.toNat ++ '-' :: rest) =
        some (year.toNat, '-' :: rest) := by
      refine number?_padded (fun w hw => ?_) hrest
      obtain rfl := Option.some.inj hw
      exact Nat.le_of_eq hlength
    have hvalue : ((year.toNat : Nat) : Int) = year := by omega
    have hne : ∀ c rest', c.isDigit = false → padded 4 year.toNat ++ '-' :: rest ≠ c :: rest' := by
      intro c rest' hc heq
      obtain ⟨d, digits, hd⟩ := List.exists_cons_of_ne_nil (padded_ne_nil 4 year.toNat)
      rw [hd] at heq
      have hdigit : d.isDigit = true := isDigit_padded (by rw [hd]; exact List.mem_cons_self)
      exact Decimal.Numeral.isDigit_ne hdigit hc (List.cons.inj heq).1
    rw [year?, skipBlanks_padded]
    split
    · rename_i rest' heq
      exact absurd heq (hne '-' rest' rfl)
    · rename_i rest' heq
      exact absurd heq (hne '+' rest' rfl)
    · rw [hnumber, Option.map_some, hvalue]
      exact if_pos h
  · have hnumber : number? none (padded 4 year.natAbs ++ '-' :: rest) =
        some (year.natAbs, '-' :: rest) := number?_padded nofun hrest
    rw [List.cons_append]
    by_cases hneg : year < 0
    · have hvalue : -((year.natAbs : Nat) : Int) = year := by omega
      rw [if_pos hneg, year?, skipBlanks_cons rfl]
      simp only
      rw [hnumber, Option.map_some, hvalue]
      exact if_pos h
    · have hvalue : ((year.natAbs : Nat) : Int) = year := by omega
      rw [if_neg hneg, year?, skipBlanks_cons rfl]
      simp only
      rw [hnumber, Option.map_some, hvalue]
      exact if_pos h

theorem date?_text {d : Date} (hyear : isYear d.year = true) (hvalid : d.isValid = true)
    {rest : Chars} (hrest : ∀ c ∈ rest.head?, c.isDigit = false) :
    date? (d.text ++ rest) = some (d, rest) := by
  obtain ⟨year, month, day⟩ := d
  have hmark : ∀ (n : Nat) (rest : Chars), ∀ c ∈ ('-' :: (padded 2 n ++ rest)).head?,
      c.isDigit = false := by
    rintro n rest c ⟨⟩
    rfl
  have hbounds := hvalid
  simp only [Date.isValid, Bool.and_eq_true, decide_eq_true_eq] at hbounds
  obtain ⟨⟨⟨hmonth, hmonth'⟩, hday⟩, hday'⟩ := hbounds
  have hmost : daysInMonth year month ≤ 31 := by
    rw [daysInMonth]
    split
    · split <;> decide
    · split <;> decide
  rw [Date.text, List.append_assoc, List.append_assoc]
  simp only [List.cons_append, date?, year?_yearText hyear, Option.bind_eq_bind, Option.bind_some,
    mark?_cons (c := '-') rfl]
  rw [field?_padded hmonth hmonth' (by omega) (hmark day rest)]
  simp only [Option.bind_some, mark?_cons (c := '-') rfl]
  rw [field?_padded hday (Nat.le_trans hday' hmost) (by omega) hrest]
  exact if_pos hvalid

/-! Times. -/

theorem nanosecond?_fractionText {n : Nat} (h : n < 1000000000) (rest : Chars)
    (hrest : ∀ c ∈ rest.head?, c.isDigit = false ∧ c ≠ '.') :
    nanosecond? (fractionText n ++ rest) = some (n, rest) := by
  have hrest' : ∀ c ∈ rest.head?, c.isDigit = false := fun c hc => (hrest c hc).1
  have hdecimals : ∀ {width value : Nat}, 0 < width → width ≤ 9 → value < 10 ^ width →
      nanosecond? ('.' :: (padded width value ++ rest)) =
        some (value * Nat.pow 10 (9 - width), rest) := by
    intro width value hpos hle hlt
    have hlength := length_padded hpos hlt
    have hnumber : number? (some 9) (padded width value ++ rest) = some (value, rest) := by
      refine number?_padded (fun w hw => ?_) hrest'
      obtain rfl := Option.some.inj hw
      exact Nat.le_trans (Nat.le_of_eq hlength) hle
    have hdrop : rest.dropWhile Char.isDigit = rest := by
      cases rest with
      | nil => rfl
      | cons c rest =>
          refine List.dropWhile_cons_of_neg ?_
          rw [hrest' c rfl]
          exact Bool.false_ne_true
    rw [nanosecond?, hnumber]
    simp only [Option.bind_eq_bind, Option.bind_some, hdrop, List.length_append, hlength,
      Nat.add_sub_cancel]
    rfl
  rw [fractionText]
  split
  · rename_i hzero
    rw [hzero, List.nil_append, nanosecond?.eq_def]
    split
    · rename_i rest'
      exact absurd rfl (hrest '.' rfl).2
    · rfl
  split
  · rename_i hmillis
    have hvalue : n / 1000000 * Nat.pow 10 (9 - 3) = n := by
      change n / 1000000 * 1000000 = n
      omega
    rw [List.cons_append, hdecimals (by decide) (by decide) (by omega), hvalue]
  split
  · rename_i hmicros
    have hvalue : n / 1000 * Nat.pow 10 (9 - 6) = n := by
      change n / 1000 * 1000 = n
      omega
    rw [List.cons_append, hdecimals (by decide) (by decide) (by omega), hvalue]
  · rw [List.cons_append, hdecimals (by decide) (by decide) h]
    exact congrArg (fun v => some (v, rest)) (Nat.mul_one n)

theorem time?_text {hour minute second nanosecond : Nat} (hhour : hour < 24) (hminute : minute < 60)
    (hsecond : second ≤ 60) (hnanosecond : nanosecond < 1000000000) :
    time? (padded 2 hour ++ ':' :: padded 2 minute ++ ':' :: padded 2 second ++
        fractionText nanosecond ++ ['Z']) =
      some (if second = 60 then (hour * 3600 + minute * 60 + 59, nanosecond + 1000000000)
        else (hour * 3600 + minute * 60 + second, nanosecond), ['Z']) := by
  have hfraction := nanosecond?_fractionText hnanosecond ['Z'] (by rintro c ⟨⟩; decide)
  have hmark : ∀ (rest : Chars), ∀ c ∈ (':' :: rest).head?, c.isDigit = false := by
    rintro rest c ⟨⟩
    rfl
  have hhead : ∀ c ∈ (fractionText nanosecond ++ ['Z']).head?, c.isDigit = false := by
    rw [fractionText]
    split
    · rintro c ⟨⟩
      rfl
    split
    · rintro c ⟨⟩
      rfl
    split <;> · rintro c ⟨⟩; rfl
  simp only [List.append_assoc, List.cons_append, time?]
  rw [field?_padded (Nat.zero_le _) (by omega) (by omega) (hmark _)]
  simp only [Option.bind_eq_bind, Option.bind_some, mark?_cons (c := ':') rfl]
  rw [field?_padded (Nat.zero_le _) (by omega) (by omega) (hmark _)]
  simp only [Option.bind_some, mark?_cons (c := ':') rfl]
  rw [field?_padded (Nat.zero_le _) hsecond (by omega) hhead]
  simp only [Option.bind_some, hfraction]
  rfl

/-! Instants. -/

namespace Instant

/-- The day lies in a year of the calendar and the second in the day. The nanoseconds may reach over
a leap second. -/
structure Valid (i : Instant) : Prop where
  year : isYear (Date.ofDays i.day).year = true
  second : i.second < 86400
  nanosecond : i.nanosecond < 2000000000

/-- A leap second that does not end a minute is the second after. -/
def settled (i : Instant) : Instant :=
  if 1000000000 ≤ i.nanosecond ∧ i.second % 60 ≠ 59 then
    { i with second := i.second + 1, nanosecond := i.nanosecond - 1000000000 }
  else i

theorem settled_day (i : Instant) : i.settled.day = i.day := by
  rw [settled]
  split <;> rfl

theorem settled_second {i : Instant} (h : i.second < 86400) : i.settled.second < 86400 := by
  rw [settled]
  split
  · simp only
    omega
  · exact h

def timeText (i : Instant) : List Char :=
  padded 2 (i.second / 3600) ++ ':' :: padded 2 (i.second / 60 % 60) ++
    ':' :: padded 2 (i.second % 60 + i.nanosecond / 1000000000) ++
      fractionText (i.nanosecond % 1000000000)

theorem text_eq (i : Instant) :
    i.text = String.ofList ((Date.ofDays i.day).text ++ 'T' :: (i.timeText ++ ['Z'])) := by
  rw [text, timeText, List.append_assoc, List.cons_append]

theorem time?_timeText {i : Instant} (h : i.Valid) :
    time? (i.timeText ++ ['Z']) = some ((i.settled.second, i.settled.nanosecond), ['Z']) := by
  obtain ⟨-, hsecond, hnanosecond⟩ := h
  rw [timeText, time?_text (by omega) (by omega) (by omega) (by omega), settled]
  congr 2
  split <;> split <;> simp only [Prod.mk.injEq] <;> omega

/-- An instant is read back from its text, up to a leap second that does not end a minute. -/
theorem ofText?_text {i : Instant} (h : i.Valid) : ofText? i.text = some i.settled := by
  obtain ⟨hdays, hvalid⟩ := Date.ofDays_spec i.day
  have hdate : date? ((Date.ofDays i.day).text ++ 'T' :: (i.timeText ++ ['Z'])) =
      some (Date.ofDays i.day, 'T' :: (i.timeText ++ ['Z'])) := by
    refine date?_text h.year hvalid ?_
    rintro c ⟨⟩
    rfl
  have hoffset : offset? (skipBlanks ['Z']) = some (0, []) := by decide
  have hsecond := settled_second h.second
  have hday : (i.day * 86400 + (i.settled.second : Int) - 0) / 86400 = i.day := by omega
  have hrest : ((i.day * 86400 + (i.settled.second : Int) - 0) % 86400).toNat =
      i.settled.second := by omega
  rw [ofText?, text_eq, String.toList_ofList, hdate]
  simp only [Option.bind_eq_bind, Option.bind_some, true_or, if_true, time?_timeText h, hoffset,
    hdays, hday, hrest]
  rw [if_pos ⟨rfl, h.year⟩, ← settled_day i]

/-- The text of an instant does not tell whether it was settled. -/
theorem text_settled {i : Instant} (h : i.Valid) : i.settled.text = i.text := by
  have hnanosecond := h.nanosecond
  rw [settled]
  split
  · rename_i hleap
    have hhour : (i.second + 1) / 3600 = i.second / 3600 := by omega
    have hminute : (i.second + 1) / 60 % 60 = i.second / 60 % 60 := by omega
    have hsecond : (i.second + 1) % 60 + (i.nanosecond - 1000000000) / 1000000000 =
        i.second % 60 + i.nanosecond / 1000000000 := by omega
    have hrest : (i.nanosecond - 1000000000) % 1000000000 = i.nanosecond % 1000000000 := by omega
    rw [text_eq, text_eq, timeText, timeText]
    simp only [hhour, hminute, hsecond, hrest]
  · rfl

theorem ofText?_text_settled {i : Instant} (h : i.Valid) :
    ofText? i.settled.text = some i.settled := by
  rw [text_settled h]
  exact ofText?_text h

end Instant

end PlanFeedback.Time
