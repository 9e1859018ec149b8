import PlanFeedback.Json.Number
import PlanFeedback.Proofs.FloatText

/-!
What is read for the numeral of a finite number in a record. Something always is, since the product
of the significand and the power of ten stays finite. It is the number itself if the numeral is so
short that nothing is rounded before the last step.
-/
namespace PlanFeedback.Json

open Decimal

/-! Gathering the digits. -/

theorem le_digitsValueFrom (n : ℕ) (digits : List Char) :
    n * 10 ^ digits.length ≤ digitsValueFrom n digits := by
  rw [digitsValueFrom_eq, Nat.ofDigitChars_eq_ofDigitChars_zero, Nat.mul_comm]
  exact Nat.le_add_right _ _

namespace Parts

/-- The product of the significand and the power of ten, before it is rounded. -/
def value (p : Parts) : ℚ := p.significand.toNat * 10 ^ p.exponent

theorem fits_iff (p : Parts) (c : Char) : p.fits c = true ↔ p.next c < 2 ^ 64 := by
  rw [fits, decide_eq_true_iff]
  exact Iff.rfl

theorem toNat_next {p : Parts} {c : Char} (h : p.fits c = true) :
    (UInt64.ofNat (p.next c)).toNat = p.next c := Nat.mod_eq_of_lt ((p.fits_iff c).1 h)

theorem digitsValueFrom_next (p : Parts) (c : Char) (digits : List Char) :
    digitsValueFrom p.significand.toNat (c :: digits) = digitsValueFrom (p.next c) digits := by
  rw [digitsValueFrom.eq_def, next]

theorem fits_of_lt {p : Parts} {c : Char} {digits : List Char}
    (h : digitsValueFrom p.significand.toNat (c :: digits) < 2 ^ 64) : p.fits c = true := by
  rw [digitsValueFrom_next] at h
  have hle : p.next c ≤ p.next c * 10 ^ digits.length :=
    Nat.le_mul_of_pos_right _ (Nat.pow_pos (by decide))
  exact (p.fits_iff c).2 ((hle.trans (le_digitsValueFrom _ _)).trans_lt h)

theorem whole_eq {p : Parts} {digits : List Char}
    (h : digitsValueFrom p.significand.toNat digits < 2 ^ 64) :
    (p.whole digits).significand.toNat = digitsValueFrom p.significand.toNat digits ∧
      (p.whole digits).exponent = p.exponent := by
  induction digits generalizing p with
  | nil => exact ⟨rfl, rfl⟩
  | cons c digits ih =>
      have hfits := fits_of_lt h
      rw [digitsValueFrom_next, ← toNat_next hfits] at h ⊢
      rw [whole, if_pos hfits]
      exact ih (p := ⟨UInt64.ofNat (p.next c), p.exponent⟩) h

theorem whole_zero {digits : List Char} (h : digitsValue digits < 2 ^ 64) :
    (whole ⟨0, 0⟩ digits).significand.toNat = digitsValue digits ∧
      (whole ⟨0, 0⟩ digits).exponent = 0 :=
  whole_eq (p := ⟨0, 0⟩) h

theorem fraction_eq {p : Parts} {digits : List Char}
    (h : digitsValueFrom p.significand.toNat digits < 2 ^ 64) :
    (p.fraction digits).significand.toNat = digitsValueFrom p.significand.toNat digits ∧
      (p.fraction digits).exponent = p.exponent - digits.length := by
  induction digits generalizing p with
  | nil => exact ⟨rfl, (Int.sub_zero _).symm⟩
  | cons c digits ih =>
      have hfits := fits_of_lt h
      rw [digitsValueFrom_next, ← toNat_next hfits] at h ⊢
      rw [fraction, if_pos hfits]
      obtain ⟨htaken, hexponent⟩ := ih (p := ⟨UInt64.ofNat (p.next c), p.exponent - 1⟩) h
      refine ⟨htaken, hexponent.trans ?_⟩
      rw [List.length_cons]
      push_cast
      ring

theorem value_fraction_le (p : Parts) (digits : List Char) :
    (p.fraction digits).value ≤
      digitsValueFrom p.significand.toNat digits * 10 ^ (p.exponent - digits.length) := by
  induction digits generalizing p with
  | nil =>
      rw [List.length_nil, Nat.cast_zero, sub_zero]
      exact le_rfl
  | cons c digits ih =>
      rw [fraction]
      split
      · rename_i hfits
        have hlength : p.exponent - ((c :: digits).length : ℤ) = p.exponent - 1 - digits.length := by
          rw [List.length_cons]
          push_cast
          ring
        have hnext := ih ⟨UInt64.ofNat (p.next c), p.exponent - 1⟩
        rwa [toNat_next hfits, ← digitsValueFrom_next, ← hlength] at hnext
      · generalize c :: digits = digits
        have hpow : (0 : ℚ) < 10 ^ (p.exponent - (digits.length : ℤ)) := zpow_pos (by norm_num) _
        have hle : (p.significand.toNat * 10 ^ digits.length : ℚ) ≤
            digitsValueFrom p.significand.toNat digits := by
          exact_mod_cast le_digitsValueFrom p.significand.toNat digits
        calc p.value = p.significand.toNat * 10 ^ digits.length *
              10 ^ (p.exponent - (digits.length : ℤ)) := by
              rw [value, mul_assoc, ← zpow_natCast, ← zpow_add₀ (by norm_num), add_sub_cancel]
          _ ≤ _ := mul_le_mul_of_nonneg_right hle hpow.le

theorem digits_eq (n : Numeral) :
    n.digits = digitsValueFrom (digitsValue n.whole) n.fraction := by
  rw [Numeral.digits, digitsValue, digitsValue, digitsValueFrom_eq, digitsValueFrom_eq,
    digitsValueFrom_eq, Nat.ofDigitChars_append]

theorem value_ofNumeral_le {n : Numeral} (h : digitsValue n.whole < 2 ^ 64) :
    (ofNumeral n).value ≤ n.magnitude := by
  obtain ⟨hsignificand, hexponent⟩ := whole_zero h
  have hfraction := value_fraction_le (whole ⟨0, 0⟩ n.whole) n.fraction
  rw [hsignificand, hexponent] at hfraction
  have hshift := mul_le_mul_of_nonneg_right hfraction (zpow_pos (by norm_num : (0 : ℚ) < 10) n.shift).le
  rw [value, mul_assoc, ← zpow_add₀ (by norm_num), mul_assoc, ← zpow_add₀ (by norm_num)] at hshift
  rw [Numeral.magnitude, digits_eq, Numeral.exponent]
  refine hshift.trans_eq ?_
  congr 2
  ring

theorem ofNumeral_eq {n : Numeral} (h : n.digits < 2 ^ 64) :
    (ofNumeral n).significand.toNat = n.digits ∧ (ofNumeral n).exponent = n.exponent := by
  rw [digits_eq] at h
  have hwhole : digitsValue n.whole < 2 ^ 64 := by
    have hle := le_digitsValueFrom (digitsValue n.whole) n.fraction
    have hpow : digitsValue n.whole ≤ digitsValue n.whole * 10 ^ n.fraction.length :=
      Nat.le_mul_of_pos_right _ (Nat.pow_pos (by decide))
    omega
  obtain ⟨hsignificand, hexponent⟩ := whole_zero hwhole
  rw [← hsignificand] at h
  obtain ⟨hdigits, hshift⟩ := fraction_eq h
  refine ⟨?_, ?_⟩
  · rw [digits_eq, ← hsignificand]
    exact hdigits
  · rw [ofNumeral, hshift, hexponent, Numeral.exponent]
    ring

end Parts

/-! Multiplying by the power of ten. -/

theorem ten_pow_lt_limit : (10 : ℚ) ^ 308 < Binary.limit := by
  have hlt : 2 * 10 ^ 308 < 18014398509481983 * 2 ^ 971 := by decide +kernel
  have hcast := (Nat.cast_lt (α := ℚ)).2 hlt
  simp only [Nat.cast_mul, Nat.cast_pow, Nat.cast_ofNat] at hcast
  rw [Binary.limit, zpow_ofNat]
  generalize (2 : ℚ) ^ 971 = x at *
  generalize (10 : ℚ) ^ 308 = y at *
  linarith

theorem limit_lt_ten_pow : Binary.limit < 10 ^ 309 := by
  have hlt : 9007199254740992 * 2 ^ 971 < 10 ^ 309 := by decide +kernel
  have hcast := (Nat.cast_lt (α := ℚ)).2 hlt
  simp only [Nat.cast_mul, Nat.cast_pow, Nat.cast_ofNat] at hcast
  have hpos : (0 : ℚ) < 2 ^ 971 := pow_pos (by norm_num) 971
  rw [Binary.limit, zpow_ofNat]
  generalize (2 : ℚ) ^ 971 = x at *
  generalize (10 : ℚ) ^ 309 = y at *
  linarith

/-- The value of a number that a rational is rounded to. -/
theorem exists_wide {x : Float} {v : ℚ} (hone : 1 ≤ v) (hmost : v < Binary.limit)
    (hsort : ∀ b : Binary, b.Canonical → b.Near v → sort x = .finite false b) :
    ∃ w : ℚ, Wide x w ∧ 1 ≤ w ∧ w ≤ v * (1 + 1 / 2 ^ 53) := by
  obtain ⟨b, hb, hnear, hwide, hexponent, hle⟩ := Binary.exists_near hone hmost
  refine ⟨_, wide_of_sort hb (hsort b hb hnear) hwide, ?_, hle⟩
  have hwide' : (2 : ℚ) ^ 52 ≤ b.mantissa := by exact_mod_cast hwide
  have hpow : (2 : ℚ) ^ (-52 : ℤ) ≤ 2 ^ b.exponent := zpow_le_zpow_right₀ (by norm_num) hexponent
  calc (1 : ℚ) = 2 ^ 52 * 2 ^ (-52 : ℤ) := by norm_num
    _ ≤ b.mantissa * 2 ^ b.exponent := mul_le_mul hwide' hpow (by positivity) (by positivity)

theorem exists_wide_toFloat {n : UInt64} (hone : (1 : ℚ) ≤ n.toNat)
    (hmost : (n.toNat : ℚ) < Binary.limit) :
    ∃ w : ℚ, Wide n.toFloat w ∧ 1 ≤ w ∧ w ≤ n.toNat * (1 + 1 / 2 ^ 53) :=
  exists_wide hone hmost fun _ hb hv => sort_toFloat hb hv

theorem sort_powerOfTen {k : ℕ} (hk : k ≤ 308) {b : Binary} (hb : b.Canonical)
    (h : b.Near (10 ^ k)) : sort (powerOfTen k) = .finite false b := by
  have hnear : b.Near ((1 : ℕ) * 10 ^ (k : ℤ)) := by
    rwa [Nat.cast_one, one_mul, zpow_natCast]
  exact sort_ofScientific hb Nat.one_pos hnear (by omega) (by omega) rfl

theorem exists_wide_powerOfTen {k : ℕ} (hk : k ≤ 308) :
    ∃ w : ℚ, Wide (powerOfTen k) w ∧ 1 ≤ w ∧ w ≤ 10 ^ k * (1 + 1 / 2 ^ 53) := by
  have hpow : (10 : ℚ) ^ k ≤ 10 ^ 308 := pow_le_pow_right₀ (by norm_num) hk
  exact exists_wide (one_le_pow₀ (by norm_num)) (hpow.trans_lt ten_pow_lt_limit) fun _ hb hv =>
    sort_powerOfTen hk hb hv

/-- Two roundings before the last one do not reach the limit. -/
theorem isFinite_product {n : UInt64} {k : ℕ} (hk : k ≤ 308) (hone : (1 : ℚ) ≤ n.toNat)
    (hmost : n.toNat * 10 ^ k * (1 + 1 / 2 ^ 53) ^ 2 < Binary.limit) :
    (n.toFloat * powerOfTen k).isFinite = true := by
  obtain ⟨c, hc⟩ : ∃ c : ℚ, c = 1 + 1 / 2 ^ 53 := ⟨_, rfl⟩
  have hcone : 1 ≤ c := by
    rw [hc]
    norm_num
  rw [← hc] at hmost
  have hten : (1 : ℚ) ≤ 10 ^ k := one_le_pow₀ (by norm_num)
  have hsignificand : (n.toNat : ℚ) < Binary.limit := by
    refine lt_of_le_of_lt ?_ hmost
    rw [mul_assoc]
    exact le_mul_of_one_le_right (by linarith) (one_le_mul_of_one_le_of_one_le hten (one_le_pow₀ hcone))
  obtain ⟨v, hv, hvone, hvmost⟩ := exists_wide_toFloat hone hsignificand
  obtain ⟨w, hw, hwone, hwmost⟩ := exists_wide_powerOfTen hk
  have hproduct : v * w < Binary.limit := by
    refine lt_of_le_of_lt ?_ hmost
    rw [← hc] at hvmost hwmost
    calc v * w ≤ n.toNat * c * (10 ^ k * c) :=
          mul_le_mul hvmost hwmost (by linarith) (by linarith)
      _ = n.toNat * 10 ^ k * c ^ 2 := by ring
  obtain ⟨b, hb, hnear, -⟩ :=
    Binary.exists_near (one_le_mul_of_one_le_of_one_le hvone hwone) hproduct
  exact isFinite_iff.2 ⟨false, b, mul_wide hv hw hb hnear⟩

theorem Parts.float?_isSome {p : Parts} {v : ℚ} (hle : p.value ≤ v)
    (hv : v * (1 + 1 / 2 ^ 53) ^ 2 < Binary.limit) : p.float?.isSome = true := by
  rw [float?]
  split
  · rfl
  rename_i hzero
  cases hexponent : p.exponent with
  | negSucc e => rfl
  | ofNat e =>
      have hpos : 1 ≤ p.significand.toNat :=
        Nat.pos_of_ne_zero fun h => hzero (UInt64.toNat_inj.1 h)
      have hone : (1 : ℚ) ≤ p.significand.toNat := by exact_mod_cast hpos
      have hmost : p.significand.toNat * 10 ^ e * (1 + 1 / 2 ^ 53) ^ 2 < Binary.limit := by
        refine lt_of_le_of_lt (mul_le_mul_of_nonneg_right ?_ (by positivity)) hv
        rw [value, hexponent, Int.ofNat_eq_natCast, zpow_natCast] at hle
        exact hle
      have hk : e ≤ 308 := by
        by_contra hgt
        have hpow : (10 : ℚ) ^ 309 ≤ 10 ^ e := pow_le_pow_right₀ (by norm_num) (by omega)
        have hten : (10 : ℚ) ^ e ≤ p.significand.toNat * 10 ^ e * (1 + 1 / 2 ^ 53) ^ 2 := by
          rw [mul_right_comm]
          exact le_mul_of_one_le_left (by positivity)
            (one_le_mul_of_one_le_of_one_le hone (one_le_pow₀ (by norm_num)))
        exact absurd (limit_lt_ten_pow.trans_le (hpow.trans (hten.trans hmost.le))) (lt_irrefl _)
      simp only [hk, isFinite_product hk hone hmost, and_self, if_true, Option.isSome_some]

/-! Numerals of records. -/

theorem digitsValueFrom_lt (n : ℕ) {digits : List Char} (h : ∀ c ∈ digits, c.isDigit = true) :
    digitsValueFrom n digits < (n + 1) * 10 ^ digits.length := by
  induction digits generalizing n with
  | nil =>
      rw [digitsValueFrom.eq_def]
      simp
  | cons c digits ih =>
      obtain ⟨hc, hdigits⟩ := List.forall_mem_cons.1 h
      have hdigit : c.toNat - '0'.toNat + 1 ≤ 10 := by
        have hbounds : 48 ≤ c.toNat ∧ c.toNat ≤ 57 := Char.isDigit_iff_toNat.1 hc
        change c.toNat - 48 + 1 ≤ 10
        omega
      have hnext := ih (10 * n + (c.toNat - '0'.toNat)) hdigits
      rw [digitsValueFrom.eq_def]
      refine hnext.trans_le ?_
      rw [List.length_cons, pow_succ', ← mul_assoc]
      exact Nat.mul_le_mul_right _ (by omega)

theorem length_whole_positional (negative : Bool) (digits : List Char) {n : ℤ} (hn : n ≤ 16) :
    (positional negative digits n).whole.length ≤ 16 := by
  rw [positional.eq_def]
  split
  · exact (by decide : 1 ≤ 16)
  · rename_i k hk
    rw [Int.ofNat_eq_natCast] at hn
    simp only [List.length_append, List.length_take, List.length_replicate]
    omega
  · exact (by decide : 1 ≤ 16)

theorem whole_withFraction (n : Numeral) : n.withFraction.whole = n.whole := by
  rw [Numeral.withFraction]
  split <;> rfl

theorem length_whole_recordNumeral (negative : Bool) (b : Binary) :
    (recordNumeral negative b).whole.length ≤ 16 := by
  rw [recordNumeral]
  split
  · decide +revert
  · dsimp only
    split
    · rename_i hplaces
      rw [whole_withFraction]
      exact length_whole_positional _ _ hplaces.2
    · exact length_whole_positional _ _ (by decide)

theorem whole_recordNumeral_lt (negative : Bool) (b : Binary) :
    digitsValue (recordNumeral negative b).whole < 2 ^ 64 := by
  have hlt := digitsValueFrom_lt 0 (wellFormed_recordNumeral negative b).digits
  have hpow : 10 ^ (recordNumeral negative b).whole.length ≤ 10 ^ 16 :=
    Nat.pow_le_pow_right (by decide) (length_whole_recordNumeral negative b)
  rw [zero_add, one_mul] at hlt
  exact (hlt.trans_le hpow).trans (by decide)

/-- All but the two greatest numbers leave room for two roundings. -/
theorem room {b : Binary} (hb : b.Canonical) (hroom : b.exponent < 971 ∨ b.mantissa + 3 ≤ 2 ^ 53)
    {v : ℚ} (hv : b.Near v) : v * (1 + 1 / 2 ^ 53) ^ 2 < Binary.limit := by
  have hpow := two_zpow_pos b.exponent
  have hle : v ≤ (b.mantissa + 1 / 2) * 2 ^ b.exponent := (div_le_iff₀ hpow).1 hv.high
  have hc : (0 : ℚ) < (1 + 1 / 2 ^ 53) ^ 2 := by positivity
  refine (mul_le_mul_of_nonneg_right hle hc.le).trans_lt ?_
  rw [Binary.limit]
  rcases hroom with hexponent | hmantissa
  · have hwide : (b.mantissa : ℚ) + 1 ≤ 2 ^ 53 := by exact_mod_cast hb.lt
    have hhalf : (2 : ℚ) ^ b.exponent ≤ 2 ^ (970 : ℤ) :=
      zpow_le_zpow_right₀ (by norm_num) (by omega)
    calc ((b.mantissa : ℚ) + 1 / 2) * 2 ^ b.exponent * (1 + 1 / 2 ^ 53) ^ 2
        ≤ (2 ^ 53 - 1 / 2) * 2 ^ (970 : ℤ) * (1 + 1 / 2 ^ 53) ^ 2 := by
          refine mul_le_mul_of_nonneg_right (mul_le_mul ?_ hhalf hpow.le (by norm_num)) hc.le
          linarith
      _ < (2 ^ 53 - 1 / 2) * (2 ^ (970 : ℤ) * 2) := by
          rw [mul_assoc]
          refine mul_lt_mul_of_pos_left (mul_lt_mul_of_pos_left ?_ (two_zpow_pos _)) (by norm_num)
          norm_num
      _ = (2 ^ 53 - 1 / 2) * 2 ^ (971 : ℤ) := by
          rw [← zpow_add_one₀ (by norm_num)]
          norm_num
  · have hwide : (b.mantissa : ℚ) + 3 ≤ 2 ^ 53 := by exact_mod_cast hmantissa
    have hmost : (2 : ℚ) ^ b.exponent ≤ 2 ^ (971 : ℤ) := zpow_le_zpow_right₀ (by norm_num) hb.most
    calc ((b.mantissa : ℚ) + 1 / 2) * 2 ^ b.exponent * (1 + 1 / 2 ^ 53) ^ 2
        ≤ (2 ^ 53 - 5 / 2) * 2 ^ (971 : ℤ) * (1 + 1 / 2 ^ 53) ^ 2 := by
          refine mul_le_mul_of_nonneg_right (mul_le_mul ?_ hmost hpow.le (by norm_num)) hc.le
          linarith
      _ < (2 ^ 53 - 1 / 2) * 2 ^ (971 : ℤ) := by
          rw [mul_right_comm]
          exact mul_lt_mul_of_pos_right (by norm_num) (two_zpow_pos _)

theorem floatOf?_recordNumeral_isSome (negative : Bool) {b : Binary}
    (hb : b = ⟨0, -1074, false⟩ ∨ b.Canonical) :
    (floatOf? (recordNumeral negative b)).isSome = true := by
  rcases hb with rfl | hb
  · cases negative <;> decide +kernel
  by_cases hroom : b.exponent < 971 ∨ b.mantissa + 3 ≤ 2 ^ 53
  · have hnear := near_shortest .toEven hb.pos.ne'
    rw [← (recordNumeral_value negative hb.pos.ne').2] at hnear
    rw [floatOf?, Option.isSome_map]
    exact Parts.float?_isSome (Parts.value_ofNumeral_le (whole_recordNumeral_lt negative b))
      (room hb hroom hnear)
  · obtain ⟨m, e, narrow⟩ := b
    have hlt : m < 2 ^ 53 := hb.lt
    have hmost : e ≤ 971 := hb.most
    have hnarrow : narrow = true ↔ m = 2 ^ 52 ∧ -1074 < e := hb.narrow_iff
    simp only at hroom
    obtain rfl : e = 971 := by omega
    obtain rfl : narrow = false := by
      rw [Bool.eq_false_iff, Ne, hnarrow]
      omega
    have hgreatest : m = 2 ^ 53 - 2 ∨ m = 2 ^ 53 - 1 := by omega
    rcases hgreatest with rfl | rfl <;> cases negative <;> decide +kernel

/-! Short numerals. -/

theorem wide_powerOfTen {k : ℕ} (hk : k ≤ 22) : Wide (powerOfTen k) (10 ^ k) := by
  have hfive : 5 ^ k < 2 ^ 53 := (Nat.pow_le_pow_right (by decide) hk).trans_lt (by decide)
  obtain ⟨b, hb, hwide, hvalue⟩ := exists_exact (Nat.pow_pos (by decide : 0 < 5)) hfive
    (Int.natCast_nonneg k) (by omega)
  have hten : (b.mantissa * 2 ^ b.exponent : ℚ) = 10 ^ k := by
    rw [hvalue, zpow_natCast, Nat.cast_pow, Nat.cast_ofNat, ← mul_pow]
    norm_num
  have hnear : b.Near (10 ^ k) := by
    rw [← hten]
    exact b.near_self
  rw [← hten]
  exact wide_of_sort hb (sort_powerOfTen (by omega) hb hnear) hwide

theorem Parts.float?_short {p : Parts} {b : Binary} (hb : b.Canonical) (hv : b.Near p.value)
    (hsignificand : p.significand.toNat < 2 ^ 53) (hleast : -22 ≤ p.exponent)
    (hmost : p.exponent ≤ 22) : ∃ x, p.float? = some x ∧ sort x = .finite false b := by
  have hpos : 0 < p.significand.toNat := by
    have hmul := hv.pos hb
    rw [value, mul_pos_iff_of_pos_right (zpow_pos (by norm_num) _)] at hmul
    exact_mod_cast hmul
  have hzero : p.significand ≠ 0 := fun h => by simp [h] at hpos
  have hx := wide_toFloat hpos hsignificand
  rw [float?, if_neg hzero]
  rw [value] at hv
  cases hexponent : p.exponent with
  | ofNat e =>
      rw [hexponent, Int.ofNat_eq_natCast] at hv hmost
      rw [zpow_natCast] at hv
      have hsort := mul_wide hx (wide_powerOfTen (by omega : e ≤ 22)) hb hv
      have hfinite : (p.significand.toFloat * powerOfTen e).isFinite = true :=
        isFinite_iff.2 ⟨_, _, hsort⟩
      exact ⟨_, if_pos ⟨by omega, hfinite⟩, hsort⟩
  | negSucc e =>
      rw [hexponent] at hv hleast
      have hsmall : e + 1 ≤ 22 := by omega
      have hquotient : (p.significand.toNat * 10 ^ Int.negSucc e : ℚ) =
          p.significand.toNat / 10 ^ (e + 1) := by
        rw [Int.negSucc_eq, zpow_neg, ← div_eq_mul_inv]
        exact_mod_cast rfl
      rw [hquotient] at hv
      have hcount : e / 308 = 0 := by omega
      have hplace : e % 308 + 1 = e + 1 := by omega
      refine ⟨_, rfl, ?_⟩
      rw [hcount, hplace, shrink]
      exact div_wide hx (wide_powerOfTen hsmall) hb hv

/-- A numeral of 53 bits with a small exponent is read as the number that it is near to. -/
theorem floatOf?_short {n : Numeral} {b : Binary} (hb : b.Canonical) (hv : b.Near n.magnitude)
    (hdigits : n.digits < 2 ^ 53) (hleast : -22 ≤ n.exponent) (hmost : n.exponent ≤ 22) :
    ∃ x, floatOf? n = some x ∧ sort x = .finite n.negative b := by
  obtain ⟨hsignificand, hexponent⟩ := Parts.ofNumeral_eq (hdigits.trans (by decide))
  rw [Numeral.magnitude, ← hsignificand, ← hexponent] at hv
  obtain ⟨x, hx, hsort⟩ := Parts.float?_short hb hv (hsignificand ▸ hdigits) (hexponent ▸ hleast)
    (hexponent ▸ hmost)
  rw [floatOf?, hx, Option.map_some]
  cases n.negative with
  | false => exact ⟨x, rfl, hsort⟩
  | true => exact ⟨-x, rfl, sort_neg hsort hb⟩

end PlanFeedback.Json
