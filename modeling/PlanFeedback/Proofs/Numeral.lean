import PlanFeedback.Decimal.Text
import PlanFeedback.Json.Token

/-!
Numerals are read back from their text. The numerals that are printed, for natural numbers and for
floating-point numbers, are of the form that is read.
-/
namespace PlanFeedback.Decimal

/-! Digits. -/

theorem digitChars_ne_nil (n : Nat) : digitChars n ≠ [] := Nat.toDigits_ne_nil

theorem isDigit_digitChars {n : Nat} {c : Char} (h : c ∈ digitChars n) : c.isDigit = true :=
  Nat.isDigit_of_mem_toDigits (by decide) (by decide) h

theorem digitsValueFrom_eq (digits : List Char) (n : Nat) :
    digitsValueFrom n digits = Nat.ofDigitChars 10 digits n := by
  induction digits generalizing n with
  | nil => exact Nat.ofDigitChars_nil.symm
  | cons c digits ih => exact (ih _).trans Nat.ofDigitChars_cons.symm

theorem digitsValue_digitChars (n : Nat) : digitsValue (digitChars n) = n := by
  rw [digitsValue, digitsValueFrom_eq]
  exact Nat.ofDigitChars_ten_toDigits

theorem head_digitChars {n : Nat} (h : n ≠ 0) : (digitChars n).head? ≠ some '0' := by
  induction n using Nat.strongRecOn with
  | _ n ih =>
      by_cases hn : n < 10
      · have hsmall : ∀ m < 10, m ≠ 0 → [m.digitChar].head? ≠ some '0' := by decide
        rw [digitChars, Nat.toDigits_of_lt_base hn]
        exact hsmall n hn h
      · have hne : n / 10 ≠ 0 := by omega
        have hhead := ih (n / 10) (by omega) hne
        obtain ⟨c, rest, hc⟩ := List.exists_cons_of_ne_nil (digitChars_ne_nil (n / 10))
        rw [digitChars] at hc hhead
        rw [digitChars, Nat.toDigits_of_base_le (by decide) (by omega), hc]
        rwa [hc] at hhead

namespace Numeral

/-- A numeral as it may be written: digits before the point, without leading zeros, and digits
wherever else digits stand. -/
structure WellFormed (n : Numeral) : Prop where
  whole : n.whole ≠ []
  digits : ∀ c ∈ n.whole, c.isDigit = true
  leading : n.whole.head? = some '0' → n.whole = ['0']
  fraction : ∀ c ∈ n.fraction, c.isDigit = true
  power : ∀ p ∈ n.power?, p.digits ≠ [] ∧ ∀ c ∈ p.digits, c.isDigit = true

theorem wellFormed_ofNat (n : Nat) : (ofNat n).WellFormed := by
  refine ⟨digitChars_ne_nil n, fun c => isDigit_digitChars, fun h => ?_, ?_, ?_⟩
  · by_cases hn : n = 0
    · subst hn
      rfl
    · exact absurd h (head_digitChars hn)
  · intro c hc
    cases hc
  · intro p hp
    cases hp

theorem natural?_ofNat {n limit : Nat} (h : n < limit) : (ofNat n).natural? limit = some n := by
  have hv : digitsValue (ofNat n).whole = n := digitsValue_digitChars n
  rw [natural?, hv, if_pos ⟨rfl, rfl, rfl, h⟩]

/-! Reading. -/

theorem takeWhile_digits {digits rest : List Char} (hd : ∀ c ∈ digits, c.isDigit = true)
    (hr : ∀ c ∈ rest.head?, c.isDigit = false) :
    (digits ++ rest).takeWhile Char.isDigit = digits := by
  rw [List.takeWhile_append_of_pos hd]
  cases rest with
  | nil => simp
  | cons c rest => simp [hr c rfl]

theorem power_text {p : Power} (hne : p.digits ≠ []) (hd : ∀ c ∈ p.digits, c.isDigit = true) :
    power p.text.tail = some p := by
  have hall : p.digits.all Char.isDigit = true := List.all_eq_true.2 hd
  obtain ⟨negative, digits⟩ := p
  cases negative <;> simp [Power.text, power, hne] <;> exact hd

def powerText : Option Power → List Char
  | none => []
  | some p => p.text

theorem head_powerText (power? : Option Power) :
    ∀ c ∈ (powerText power?).head?, c.isDigit = false ∧ c ≠ '.' := by
  intro c hc
  cases power? with
  | none => cases hc
  | some p =>
      obtain rfl := Option.some.inj hc
      exact ⟨rfl, by decide⟩

theorem tail?_powerText (n : Numeral)
    (h : ∀ p ∈ n.power?, p.digits ≠ [] ∧ ∀ c ∈ p.digits, c.isDigit = true) :
    tail? { n with power? := none } (powerText n.power?) = some n := by
  obtain ⟨negative, whole, fraction, power?⟩ := n
  cases power? with
  | none => rfl
  | some p =>
      obtain ⟨hne, hd⟩ := h p rfl
      have hp := power_text hne hd
      simp only [Power.text, List.tail_cons] at hp
      simp only [powerText, Power.text, tail?, true_or, if_true, hp, Option.map_some]

def magnitudeText (n : Numeral) : List Char :=
  n.whole ++ ((if n.fraction.isEmpty then [] else '.' :: n.fraction) ++ powerText n.power?)

theorem text_eq (n : Numeral) :
    n.text = (if n.negative then ['-'] else []) ++ n.magnitudeText := by
  obtain ⟨negative, whole, fraction, power?⟩ := n
  cases power? <;> simp only [text, magnitudeText, powerText, List.append_assoc]

theorem unsigned?_magnitudeText {n : Numeral} (h : n.WellFormed) :
    unsigned? n.magnitudeText = some { n with negative := false } := by
  have hcond : ¬ (n.whole = [] ∨ (n.whole.head? = some '0' ∧ n.whole ≠ ['0'])) := by
    rintro (hw | ⟨hz, hw⟩)
    · exact h.whole hw
    · exact hw (h.leading hz)
  by_cases hf : n.fraction = []
  · have hrest : n.magnitudeText = n.whole ++ powerText n.power? := by simp [magnitudeText, hf]
    have htake := takeWhile_digits h.digits fun c hc => (head_powerText n.power? c hc).1
    have htail := tail?_powerText { n with negative := false } h.power
    rw [hrest, unsigned?]
    simp only [htake, List.drop_left]
    rw [if_neg hcond]
    simp only [hf] at htail ⊢
    split
    · rename_i rest hp
      exact absurd rfl (head_powerText n.power? '.' (by rw [hp]; rfl)).2
    · exact htail
  · have hrest : n.magnitudeText = n.whole ++ '.' :: (n.fraction ++ powerText n.power?) := by
      simp [magnitudeText, hf]
    have htake : (n.whole ++ '.' :: (n.fraction ++ powerText n.power?)).takeWhile Char.isDigit =
        n.whole := takeWhile_digits h.digits fun c hc => by rw [← Option.some.inj hc]; rfl
    have htake' := takeWhile_digits h.fraction fun c hc => (head_powerText n.power? c hc).1
    have htail := tail?_powerText { n with negative := false } h.power
    rw [hrest, unsigned?]
    simp only [htake, List.drop_left]
    rw [if_neg hcond]
    simp only [htake', List.drop_left]
    rw [if_neg hf]
    exact htail

theorem head_magnitudeText {n : Numeral} (h : n.WellFormed) :
    ∃ c rest, n.magnitudeText = c :: rest ∧ c.isDigit = true := by
  obtain ⟨c, rest, hc⟩ := List.exists_cons_of_ne_nil h.whole
  exact ⟨c, _, by rw [magnitudeText, hc]; rfl, h.digits c (by simp [hc])⟩

theorem isDigit_ne {c d : Char} (hc : c.isDigit = true) (hd : d.isDigit = false) : c ≠ d := by
  rintro rfl
  rw [hc] at hd
  cases hd

/-- A numeral is read back from its text. -/
theorem ofChars?_text {n : Numeral} (h : n.WellFormed) : ofChars? n.text = some n := by
  have hread := unsigned?_magnitudeText h
  obtain ⟨c, rest, hc, hdigit⟩ := head_magnitudeText h
  rw [text_eq]
  obtain ⟨negative, whole, fraction, power?⟩ := n
  cases negative with
  | true => simp only [ofChars?, if_true, List.singleton_append, hread, Option.map_some]
  | false =>
      rw [if_neg Bool.false_ne_true, List.nil_append]
      rw [ofChars?]
      · exact hread
      · intro rest' hrest
        rw [hc] at hrest
        exact isDigit_ne hdigit (d := '-') rfl (List.cons.inj hrest).1

theorem isWordChar_text {n : Numeral} (h : n.WellFormed) :
    ∀ c ∈ n.text, Json.isWordChar c = true := by
  have hdigit : ∀ c : Char, c.isDigit = true → Json.isWordChar c = true := fun c hc => by
    simp [Json.isWordChar, Char.isAlphanum, hc]
  intro c hc
  simp only [text_eq, magnitudeText, List.mem_append] at hc
  rcases hc with hc | hc | hc | hc
  · split at hc
    · rw [List.mem_singleton.1 hc]
      rfl
    · cases hc
  · exact hdigit c (h.digits c hc)
  · split at hc
    · cases hc
    · rcases List.mem_cons.1 hc with rfl | hc
      · rfl
      · exact hdigit c (h.fraction c hc)
  · obtain ⟨negative, whole, fraction, power?⟩ := n
    cases power? with
    | none => cases hc
    | some p =>
        simp only [powerText, Power.text, List.mem_cons] at hc
        rcases hc with rfl | hc | hc
        · rfl
        · split at hc <;> rw [hc] <;> rfl
        · exact hdigit c ((h.power p rfl).2 c hc)

theorem text_ne_nil {n : Numeral} (h : n.WellFormed) : n.text ≠ [] := by
  obtain ⟨c, rest, hc, -⟩ := head_magnitudeText h
  rw [text_eq, hc]
  simp

theorem wordToken?_text {n : Numeral} (h : n.WellFormed) :
    Json.wordToken? n.text = some (.number n) := by
  have hhead : ∀ d w, (d : Char).isDigit = false → d ≠ '-' → n.text ≠ d :: w := by
    intro d w hd hm he
    obtain ⟨c, rest, hc, hdigit⟩ := head_magnitudeText h
    rw [text_eq, hc] at he
    split at he
    · exact hm (List.cons.inj he).1.symm
    · exact isDigit_ne hdigit hd (List.cons.inj he).1
  have hnull : n.text ≠ "null".toList := hhead 'n' "ull".toList rfl (by decide)
  have htrue : n.text ≠ "true".toList := hhead 't' "rue".toList rfl (by decide)
  have hfalse : n.text ≠ "false".toList := hhead 'f' "alse".toList rfl (by decide)
  rw [Json.wordToken?, if_neg hnull, if_neg htrue, if_neg hfalse, ofChars?_text h]
  rfl

end Numeral

/-! The numerals of floating-point numbers. -/

theorem two_pow_pos (e : Nat) : 0 < Nat.pow 2 e := Nat.two_pow_pos e

theorem powerOfTen_pos (e : Int) : 0 < powerOfTen e := by
  cases e with
  | ofNat e => exact Nat.pow_pos (by decide)
  | negSucc e => exact Nat.one_pos

theorem Interval.ofBinary_low {b : Binary} (h : b.mantissa ≠ 0) : 0 < (Interval.ofBinary b).low := by
  have hlow : 0 < 4 * b.mantissa - (if b.narrow then 1 else 2) := by
    split <;> omega
  rw [Interval.ofBinary]
  split
  · exact Nat.mul_pos hlow (two_pow_pos _)
  · exact hlow

theorem Interval.not_contains_zero {i : Interval} (h : 0 < i.low) : i.contains 0 = false := by
  have h1 : ¬ i.low ≤ 0 := by omega
  have h2 : ¬ i.low < 0 := by omega
  simp only [Interval.contains, Nat.zero_mul, h1, h2, decide_false, Bool.false_and, ite_self]

/-- A number above zero has no interval that contains zero. -/
theorem Interval.nearestInteger?_ne_zero {tie : Tie} {i : Interval} {n : Nat} (h : 0 < i.low)
    (hn : i.nearestInteger? tie = some n) : n ≠ 0 := by
  have hzero := i.not_contains_zero h
  rw [Interval.nearestInteger?.eq_def] at hn
  dsimp only at hn
  generalize i.value / i.denominator = floor at hn
  cases hf : i.contains floor with
  | false =>
      cases hs : i.contains (floor + 1) with
      | false => simp [hf, hs] at hn
      | true =>
          simp only [hf, hs, Option.some.injEq] at hn
          omega
  | true =>
      have hfloor : floor ≠ 0 := by
        rintro rfl
        rw [hzero] at hf
        cases hf
      cases hs : i.contains (floor + 1) with
      | false =>
          simp only [hf, hs, Option.some.injEq] at hn
          omega
      | true =>
          simp only [hf, hs] at hn
          grind

theorem exact_digits_ne_zero {b : Binary} (h : b.mantissa ≠ 0) : (exact b).digits ≠ 0 := by
  rw [exact]
  split
  · exact Nat.mul_ne_zero h (Nat.ne_of_gt (Nat.pow_pos (by decide)))
  · exact Nat.mul_ne_zero h (Nat.ne_of_gt (Nat.pow_pos (by decide)))

theorem shortest_digits_ne_zero (tie : Tie) {b : Binary} (h : b.mantissa ≠ 0) :
    (shortest tie b).digits ≠ 0 := by
  rw [shortest, if_neg h]
  generalize ceiling b = e
  generalize 25 = count
  induction count generalizing e with
  | zero => exact exact_digits_ne_zero h
  | succ count ih =>
      rw [searchFrom]
      split
      · rename_i digits hd
        refine Interval.nearestInteger?_ne_zero ?_ hd
        exact Nat.mul_pos (Interval.ofBinary_low h) (powerOfTen_pos _)
      · exact ih (e - 1)

theorem isDigit_replicate {n : Nat} {c : Char} (h : c ∈ List.replicate n '0') :
    c.isDigit = true := by
  rw [List.eq_of_mem_replicate h]
  rfl

theorem wellFormed_positional (negative : Bool) {d : Nat} (h : d ≠ 0) (n : Int) :
    (positional negative (digitChars d) n).WellFormed := by
  have hdigits : ∀ c ∈ digitChars d, c.isDigit = true := fun c => isDigit_digitChars
  have hpower : ∀ p ∈ (none : Option Power), p.digits ≠ [] ∧ ∀ c ∈ p.digits, c.isDigit = true :=
    fun p hp => by cases hp
  rw [positional.eq_def]
  split
  · exact ⟨List.cons_ne_nil _ _, fun c hc => by rw [List.mem_singleton.1 hc]; rfl, fun _ => rfl,
      hdigits, hpower⟩
  · rename_i n hn
    obtain ⟨c, rest, hc⟩ := List.exists_cons_of_ne_nil (digitChars_ne_nil d)
    obtain ⟨m, rfl⟩ : ∃ m, n = m + 1 := Nat.exists_eq_succ_of_ne_zero fun h0 => hn (by rw [h0])
    have hhead := head_digitChars h
    rw [hc] at hhead
    refine ⟨?_, fun e he => ?_, fun h0 => ?_, fun e he => ?_, hpower⟩
    · simp [hc]
    · rcases List.mem_append.1 he with he | he
      · exact hdigits e (List.mem_of_mem_take he)
      · exact isDigit_replicate he
    · simp only [hc, List.take_succ_cons, List.cons_append, List.head?_cons] at h0
      exact absurd h0 hhead
    · exact hdigits e (List.mem_of_mem_drop he)
  · refine ⟨List.cons_ne_nil _ _, fun c hc => by rw [List.mem_singleton.1 hc]; rfl, fun _ => rfl,
      fun c hc => ?_, hpower⟩
    rcases List.mem_append.1 hc with hc | hc
    · exact isDigit_replicate hc
    · exact hdigits c hc

theorem Numeral.WellFormed.withFraction {n : Numeral} (h : n.WellFormed) :
    n.withFraction.WellFormed := by
  rw [Numeral.withFraction]
  split
  · refine ⟨h.whole, h.digits, h.leading, fun c hc => ?_, h.power⟩
    rw [List.mem_singleton.1 hc]
    rfl
  · exact h

theorem wellFormed_zeroNumeral (negative : Bool) : (zeroNumeral negative).WellFormed := by
  refine ⟨List.cons_ne_nil _ _, fun c hc => ?_, fun _ => rfl, fun c hc => ?_, fun p hp => ?_⟩
  · rw [List.mem_singleton.1 hc]
    rfl
  · cases hc
  · cases hp

theorem wellFormed_recordNumeral (negative : Bool) (b : Binary) :
    (recordNumeral negative b).WellFormed := by
  rw [recordNumeral]
  split
  · exact (wellFormed_zeroNumeral negative).withFraction
  · rename_i hb
    have hdigits := shortest_digits_ne_zero .toEven hb
    dsimp only
    split
    · exact (wellFormed_positional negative hdigits _).withFraction
    · have hp := wellFormed_positional negative hdigits 1
      refine ⟨hp.whole, hp.digits, hp.leading, hp.fraction, fun p hpower => ?_⟩
      obtain rfl := Option.some.inj hpower
      exact ⟨digitChars_ne_nil _, fun c => isDigit_digitChars⟩

theorem wellFormed_recordNumeral? {x : Float} {n : Numeral} (h : recordNumeral? x = some n) :
    n.WellFormed := by
  rw [recordNumeral?] at h
  split at h
  · cases h
  · cases h
  · rw [← Option.some.inj h]
    exact wellFormed_recordNumeral _ _

end PlanFeedback.Decimal
