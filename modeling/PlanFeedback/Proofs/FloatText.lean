import PlanFeedback.Proofs.Nearest
import PlanFeedback.Proofs.Numeral

/-!
The text of a floating-point number in a record is read back as the number. The shortest decimal is
one of the rationals around the number, and the numeral has the value of the decimal.
-/
namespace PlanFeedback.Decimal

/-! Intervals. -/

theorem powerOfTen_div (e : ℤ) : (powerOfTen e : ℚ) / powerOfTen (-e) = 10 ^ e := by
  cases e with
  | ofNat k =>
      cases k with
      | zero => norm_num [powerOfTen]
      | succ k =>
          change ((10 ^ (k + 1) : ℕ) : ℚ) / ((1 : ℕ) : ℚ) = 10 ^ ((k + 1 : ℕ) : ℤ)
          rw [zpow_natCast, Nat.cast_pow, Nat.cast_one, div_one, Nat.cast_ofNat]
  | negSucc k =>
      change ((1 : ℕ) : ℚ) / ((10 ^ (k + 1) : ℕ) : ℚ) = 10 ^ (-((k + 1 : ℕ) : ℤ))
      rw [zpow_neg, zpow_natCast, Nat.cast_pow, Nat.cast_one, one_div, Nat.cast_ofNat]

namespace Interval

theorem ofBinary_value {b : Binary} (hb : b.mantissa ≠ 0) :
    0 < (ofBinary b).denominator ∧
    ((ofBinary b).low : ℚ) / (ofBinary b).denominator =
      (b.mantissa - if b.narrow then 1 / 4 else 1 / 2) * 2 ^ b.exponent ∧
    ((ofBinary b).high : ℚ) / (ofBinary b).denominator = (b.mantissa + 1 / 2) * 2 ^ b.exponent ∧
    (ofBinary b).closed = decide (b.mantissa % 2 = 0) := by
  obtain ⟨e, he⟩ : ∃ e, e = b.exponent - 2 := ⟨_, rfl⟩
  have hexponent : (2 : ℚ) ^ b.exponent = 4 * 2 ^ e := by
    rw [he, zpow_sub₀ (by norm_num)]
    field_simp
    norm_num
  have hlow : ((4 * b.mantissa - if b.narrow then 1 else 2 : ℕ) : ℚ) =
      (b.mantissa - if b.narrow then 1 / 4 else 1 / 2) * 4 := by
    split
    · rw [Nat.cast_sub (by omega)]
      push_cast
      ring
    · rw [Nat.cast_sub (by omega)]
      push_cast
      ring
  have hhigh : ((4 * b.mantissa + 2 : ℕ) : ℚ) = (b.mantissa + 1 / 2) * 4 := by
    push_cast
    ring
  rw [ofBinary, ← he, hexponent, ← mul_assoc, ← mul_assoc, ← hlow, ← hhigh]
  cases e with
  | ofNat k =>
      refine ⟨Nat.one_pos, ?_, ?_, rfl⟩
      · change ((_ * 2 ^ k : ℕ) : ℚ) / ((1 : ℕ) : ℚ) = _ * 2 ^ (k : ℤ)
        rw [Nat.cast_mul, Nat.cast_one, div_one, zpow_natCast, Nat.cast_pow, Nat.cast_ofNat]
      · change ((_ * 2 ^ k : ℕ) : ℚ) / ((1 : ℕ) : ℚ) = _ * 2 ^ (k : ℤ)
        rw [Nat.cast_mul, Nat.cast_one, div_one, zpow_natCast, Nat.cast_pow, Nat.cast_ofNat]
  | negSucc k =>
      refine ⟨Nat.two_pow_pos (k + 1), ?_, ?_, rfl⟩
      · change _ / ((2 ^ (k + 1) : ℕ) : ℚ) = _ * 2 ^ (-((k + 1 : ℕ) : ℤ))
        rw [zpow_neg, zpow_natCast, Nat.cast_pow, Nat.cast_ofNat, div_eq_mul_inv]
      · change _ / ((2 ^ (k + 1) : ℕ) : ℚ) = _ * 2 ^ (-((k + 1 : ℕ) : ℤ))
        rw [zpow_neg, zpow_natCast, Nat.cast_pow, Nat.cast_ofNat, div_eq_mul_inv]

theorem le_scale {d : ℕ} (hd : 0 < d) (a n : ℕ) (e : ℤ) :
    (a * powerOfTen (-e) ≤ n * (d * powerOfTen e) ↔ (a : ℚ) / d ≤ n * 10 ^ e) ∧
    (n * (d * powerOfTen e) ≤ a * powerOfTen (-e) ↔ n * 10 ^ e ≤ (a : ℚ) / d) := by
  have hdown : (0 : ℚ) < powerOfTen (-e) := by exact_mod_cast powerOfTen_pos (-e)
  have hd' : (0 : ℚ) < d := by exact_mod_cast hd
  rw [← powerOfTen_div, mul_div_assoc', div_le_div_iff₀ hd' hdown, div_le_div_iff₀ hdown hd',
    mul_assoc, mul_comm (powerOfTen e : ℚ)]
  constructor
  · exact_mod_cast Iff.rfl
  · exact_mod_cast Iff.rfl

/-- What the interval of a number contains is read as the number. -/
theorem near_of_contains {b : Binary} (hb : b.mantissa ≠ 0) {n : ℕ} {e : ℤ}
    (h : ((ofBinary b).scale e).contains n = true) : b.Near (n * 10 ^ e) := by
  obtain ⟨hdenominator, hlow, hhigh, hclosed⟩ := ofBinary_value hb
  have hpow := two_zpow_pos b.exponent
  obtain ⟨hle, hle'⟩ := le_scale hdenominator (ofBinary b).low n e
  obtain ⟨hge', hge⟩ := le_scale hdenominator (ofBinary b).high n e
  rw [hlow, ← le_div_iff₀ hpow] at hle
  rw [hlow, ← div_le_iff₀ hpow] at hle'
  rw [hhigh, ← le_div_iff₀ hpow] at hge'
  rw [hhigh, ← div_le_iff₀ hpow] at hge
  rw [contains] at h
  simp only [scale, hclosed, decide_eq_true_eq] at h
  split at h
  · rename_i heven
    rw [Bool.and_eq_true, decide_eq_true_eq, decide_eq_true_eq] at h
    exact ⟨hle.1 h.1, hge.1 h.2, fun hodd => by omega⟩
  · rw [Bool.and_eq_true, decide_eq_true_eq, decide_eq_true_eq, ← not_le, ← not_le, hle', hge',
      not_le, not_le] at h
    refine ⟨h.1.le, h.2.le, fun _ => ⟨lt_of_le_of_lt ?_ h.1, h.2⟩⟩
    split <;> linarith

theorem contains_nearestInteger? {tie : Tie} {i : Interval} {n : ℕ}
    (h : i.nearestInteger? tie = some n) : i.contains n = true := by
  rw [nearestInteger?.eq_def] at h
  dsimp only at h
  generalize i.value / i.denominator = floor at h
  cases hf : i.contains floor <;> cases hs : i.contains (floor + 1) <;>
    simp only [hf, hs, Option.some.injEq] at h <;> grind

end Interval

theorem exact_value (b : Binary) :
    ((exact b).digits * 10 ^ (exact b).exponent : ℚ) = b.mantissa * 2 ^ b.exponent := by
  obtain ⟨m, e, narrow⟩ := b
  cases e with
  | ofNat k =>
      change ((m * 2 ^ k : ℕ) : ℚ) * 10 ^ (0 : ℤ) = m * 2 ^ (k : ℤ)
      rw [zpow_zero, mul_one, zpow_natCast, Nat.cast_mul, Nat.cast_pow, Nat.cast_ofNat]
  | negSucc k =>
      change ((m * 5 ^ (k + 1) : ℕ) : ℚ) * 10 ^ (-((k + 1 : ℕ) : ℤ)) = m * 2 ^ (-((k + 1 : ℕ) : ℤ))
      have hten : (10 : ℚ) = 5 * 2 := by norm_num
      rw [zpow_neg, zpow_natCast, zpow_neg, zpow_natCast, Nat.cast_mul, Nat.cast_pow, Nat.cast_ofNat,
        hten, mul_pow, mul_inv, mul_assoc, mul_inv_cancel_left₀ (by positivity)]

/-- The shortest decimal is read as the number. -/
theorem near_shortest (tie : Tie) {b : Binary} (hb : b.mantissa ≠ 0) :
    b.Near ((shortest tie b).digits * 10 ^ (shortest tie b).exponent) := by
  rw [shortest, if_neg hb]
  generalize ceiling b = e
  generalize 25 = count
  induction count generalizing e with
  | zero =>
      rw [searchFrom, exact_value]
      exact b.near_self
  | succ count ih =>
      rw [searchFrom]
      split
      · rename_i digits hdigits
        exact Interval.near_of_contains hb (Interval.contains_nearestInteger? hdigits)
      · exact ih (e - 1)

/-! Numerals. -/

namespace Numeral

def magnitude (n : Numeral) : ℚ := n.digits * 10 ^ n.exponent

theorem sort_toFloat {b : Binary} (hb : b.Canonical) {n : Numeral} (h : b.Near n.magnitude) :
    sort n.toFloat = .finite n.negative b := by
  have hnearest := sort_nearest hb h
  rw [toFloat]
  split
  · rename_i hneg
    rw [hneg]
    exact sort_neg hnearest hb
  · rename_i hpos
    rw [Bool.not_eq_true] at hpos
    rw [hpos]
    exact hnearest

end Numeral

theorem digitsValue_zeros_append (z : ℕ) (digits : List Char) :
    digitsValue (List.replicate z '0' ++ digits) = digitsValue digits := by
  rw [digitsValue, digitsValueFrom_eq, Nat.ofDigitChars_append, Nat.ofDigitChars_replicate_zero,
    Nat.mul_zero, ← digitsValueFrom_eq, digitsValue]

theorem digitsValue_append_zeros (digits : List Char) (z : ℕ) :
    digitsValue (digits ++ List.replicate z '0') = digitsValue digits * 10 ^ z := by
  rw [digitsValue, digitsValueFrom_eq, Nat.ofDigitChars_append, Nat.ofDigitChars_replicate_zero,
    ← digitsValueFrom_eq, digitsValue, Nat.mul_comm]

theorem magnitude_mk (negative : Bool) (whole fraction : List Char) :
    Numeral.magnitude { negative, whole, fraction } =
      digitsValue (whole ++ fraction) * 10 ^ (-(fraction.length : ℤ)) := by
  rw [← zero_sub]
  rfl

theorem magnitude_positional (negative : Bool) (d : ℕ) (n : ℤ) :
    (positional negative (digitChars d) n).magnitude = d * 10 ^ (n - (digitChars d).length) := by
  have hd := digitsValue_digitChars d
  generalize digitChars d = digits at *
  rw [positional.eq_def]
  split
  · rw [magnitude_mk, Int.ofNat_eq_natCast, Nat.cast_zero, zero_sub, ← List.replicate_one,
      digitsValue_zeros_append, hd]
  · rename_i n hn
    rw [magnitude_mk, Int.ofNat_eq_natCast, List.length_drop]
    rcases Nat.le_total digits.length n with hle | hle
    · have hexponent : (n : ℤ) - digits.length = ((n - digits.length : ℕ) : ℤ) := by omega
      rw [List.take_of_length_le hle, List.drop_of_length_le hle, List.append_nil,
        digitsValue_append_zeros, hd, Nat.sub_eq_zero_of_le hle, hexponent, Nat.cast_zero, neg_zero,
        zpow_zero, mul_one, zpow_natCast, Nat.cast_mul, Nat.cast_pow, Nat.cast_ofNat]
    · have hexponent : -((digits.length - n : ℕ) : ℤ) = n - digits.length := by omega
      rw [Nat.sub_eq_zero_of_le hle, List.replicate_zero, List.append_nil, List.take_append_drop, hd,
        hexponent]
  · rename_i z
    have hwhole : ['0'] ++ (List.replicate (z + 1) '0' ++ digits) =
        List.replicate (z + 2) '0' ++ digits := by
      rw [← List.append_assoc, List.singleton_append, ← List.replicate_succ]
    have hexponent : -((z + 1 + digits.length : ℕ) : ℤ) = Int.negSucc z - digits.length := by
      omega
    rw [magnitude_mk, hwhole, digitsValue_zeros_append, hd, List.length_append,
      List.length_replicate, hexponent]

theorem magnitude_withFraction (n : Numeral) : n.withFraction.magnitude = n.magnitude := by
  obtain ⟨negative, whole, fraction, power?⟩ := n
  rw [Numeral.withFraction]
  split
  · rename_i h
    simp only at h
    subst h
    have hzero : digitsValue (whole ++ ['0']) = digitsValue whole * 10 := by
      rw [← List.replicate_one, digitsValue_append_zeros, pow_one]
    have hten : ∀ k : ℤ, (10 : ℚ) * 10 ^ (k - (1 : ℕ)) = 10 ^ (k - (0 : ℕ)) := by
      intro k
      rw [← zpow_one_add₀ (by norm_num)]
      congr 1
      push_cast
      ring
    rw [Numeral.magnitude, Numeral.magnitude]
    simp only [Numeral.digits, Numeral.exponent, Numeral.shift, hzero, List.append_nil, List.length_cons,
      List.length_nil, Nat.cast_mul, Nat.cast_ofNat, mul_assoc, zero_add, hten]
  · rfl

theorem value_power (n : ℤ) : Power.value ⟨n < 0, digitChars n.natAbs⟩ = n := by
  rw [Power.value]
  simp only [digitsValue_digitChars, decide_eq_true_eq]
  split <;> omega

theorem negative_positional (negative : Bool) (digits : List Char) (n : ℤ) :
    (positional negative digits n).negative = negative := by
  rw [positional.eq_def]
  split <;> rfl

theorem negative_withFraction (n : Numeral) : n.withFraction.negative = n.negative := by
  rw [Numeral.withFraction]
  split <;> rfl

theorem power?_positional (negative : Bool) (digits : List Char) (n : ℤ) :
    (positional negative digits n).power? = none := by
  rw [positional.eq_def]
  split <;> rfl

theorem magnitude_power {n : Numeral} (hn : n.power? = none) (p : Power) :
    Numeral.magnitude { n with power? := some p } = n.magnitude * 10 ^ p.value := by
  have hexponent : Numeral.exponent { n with power? := some p } = n.exponent + p.value := by
    simp only [Numeral.exponent, Numeral.shift, hn]
    omega
  rw [Numeral.magnitude, hexponent, zpow_add₀ (by norm_num), ← mul_assoc]
  rfl

theorem recordNumeral_value (negative : Bool) {b : Binary} (hb : b.mantissa ≠ 0) :
    (recordNumeral negative b).negative = negative ∧
    (recordNumeral negative b).magnitude =
      (shortest .toEven b).digits * 10 ^ (shortest .toEven b).exponent := by
  rw [recordNumeral, if_neg hb]
  generalize shortest .toEven b = s
  have hexponent : s.wholeLength - (digitChars s.digits).length = s.exponent := by
    rw [Scientific.wholeLength]
    omega
  simp only
  split
  · rw [negative_withFraction, negative_positional, magnitude_withFraction, magnitude_positional,
      hexponent]
    exact ⟨rfl, rfl⟩
  · refine ⟨negative_positional _ _ _, ?_⟩
    rw [magnitude_power (power?_positional _ _ _), magnitude_positional, value_power, mul_assoc,
      ← zpow_add₀ (by norm_num), ← hexponent]
    congr 2
    omega

theorem sort_recordNumeral (negative : Bool) {b : Binary}
    (hb : b = ⟨0, -1074, false⟩ ∨ b.Canonical) :
    sort (recordNumeral negative b).toFloat = .finite negative b := by
  rcases hb with rfl | hb
  · cases negative <;> decide +kernel
  · obtain ⟨hnegative, hmagnitude⟩ := recordNumeral_value negative hb.pos.ne'
    have hnear := near_shortest .toEven hb.pos.ne'
    rw [← hmagnitude] at hnear
    have hsort := Numeral.sort_toFloat hb hnear
    rwa [hnegative] at hsort

theorem recordNumeral?_eq_some {x : Float} {n : Numeral} : recordNumeral? x = some n ↔
    ∃ negative b, sort x = .finite negative b ∧ recordNumeral negative b = n := by
  rw [recordNumeral?]
  cases hsort : sort x with
  | nan => simp
  | infinite negative => simp
  | finite negative b => simp

/-- The nearest number to the numeral of a number is the number. -/
theorem toFloat_of_recordNumeral? {x : Float} {n : Numeral} (h : recordNumeral? x = some n) :
    n.toFloat = x := by
  obtain ⟨negative, b, hsort, rfl⟩ := recordNumeral?_eq_some.1 h
  exact sort_inj (sort_recordNumeral negative (toBits_of_sort hsort).2) hsort

end PlanFeedback.Decimal
