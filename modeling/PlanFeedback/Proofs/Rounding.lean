import Mathlib
import PlanFeedback.Decimal.Binary

/-!
Rounding to the nearest floating-point number. A rational that lies among the rationals around a
number, half a place to either side, is rounded to this number, whether it comes as a product or as
a quotient.
-/
namespace PlanFeedback.Decimal

open Float.Model (Format UnpackedFloat totalExponent)
open Float.Model.UnpackedFloat

/-! Mantissas with two more bits. -/

/-- The rationals that a mantissa with its round bit and its sticky bit stands for. -/
def Represents : ExtendedMantissa → ℚ → Prop
  | ⟨m, false, false⟩, x => x = m
  | ⟨m, false, true⟩, x => m < x ∧ x < m + 1 / 2
  | ⟨m, true, false⟩, x => x = m + 1 / 2
  | ⟨m, true, true⟩, x => m + 1 / 2 < x ∧ x < m + 1

namespace Represents

variable {em : ExtendedMantissa} {x : ℚ}

theorem bounds (h : Represents em x) : (em.mantissa : ℚ) ≤ x ∧ x < em.mantissa + 1 := by
  obtain ⟨m, round, sticky⟩ := em
  cases round <;> cases sticky <;> simp only [Represents] at h ⊢ <;> constructor <;> linarith

theorem shiftRightOne (h : Represents em x) : Represents em.shiftRightOne (x / 2) := by
  obtain ⟨m, round, sticky⟩ := em
  obtain ⟨k, b, rfl⟩ : ∃ (k : ℕ) (b : Bool), m = 2 * k + b.toNat := by
    rcases Nat.mod_two_eq_zero_or_one m with hm | hm
    · exact ⟨m / 2, false, by rw [Bool.toNat_false]; omega⟩
    · exact ⟨m / 2, true, by rw [Bool.toNat_true]; omega⟩
  have hshift : ExtendedMantissa.shiftRightOne ⟨2 * k + b.toNat, round, sticky⟩ =
      ⟨k, b, round || sticky⟩ := by
    cases b <;> simp [ExtendedMantissa.shiftRightOne]
    omega
  rw [hshift]
  cases b <;> cases round <;> cases sticky <;>
    simp only [Represents, Bool.toNat, cond, Bool.or_self, Bool.or_true, Bool.true_or, Nat.cast_add,
      Nat.cast_mul, Nat.cast_ofNat, Nat.cast_one, Nat.cast_zero] at h ⊢ <;>
    first | linarith | (constructor <;> linarith)

theorem shiftRight (h : Represents em x) (n : ℕ) : Represents (em >>> n) (x / 2 ^ n) := by
  induction n with
  | zero =>
      rw [pow_zero, div_one]
      exact h
  | succ n ih =>
      rw [pow_succ, ← div_div]
      exact ih.shiftRightOne

/-- A mantissa is rounded to the nearest integer, from halfway to the even one. -/
theorem roundedMantissa_eq (h : Represents em x) {n : ℕ} (hlow : (n : ℚ) - 1 / 2 ≤ x)
    (hhigh : x ≤ n + 1 / 2) (hodd : n % 2 = 1 → (n : ℚ) - 1 / 2 < x ∧ x < n + 1 / 2) :
    em.roundedMantissa = n := by
  obtain ⟨m, round, sticky⟩ := em
  cases round <;> cases sticky <;> simp only [Represents] at h
  case false.false =>
    have hle : (m : ℚ) < n + 1 := by linarith
    have hge : (n : ℚ) < m + 1 := by linarith
    norm_cast at hle hge
    change m = n
    omega
  case false.true =>
    have hle : (m : ℚ) < n + 1 := by linarith
    have hge : (n : ℚ) < m + 1 := by linarith
    norm_cast at hle hge
    change m = n
    omega
  case true.false =>
    have hle : (m : ℚ) ≤ n := by linarith
    have hge : (n : ℚ) ≤ m + 1 := by linarith
    have heven : n % 2 = 0 := by
      by_contra hne
      obtain ⟨hlow, hhigh⟩ := hodd (by omega)
      have hlt : (n : ℚ) < m + 1 := by linarith
      have hgt : (m : ℚ) < n := by linarith
      norm_cast at hlt hgt
      omega
    norm_cast at hle hge
    change m + m % 2 = n
    omega
  case true.true =>
    have hle : (m : ℚ) < n := by linarith
    have hge : (n : ℚ) < m + 2 := by linarith
    norm_cast at hle hge
    change m + 1 = n
    omega

theorem exact (m : ℕ) : Represents (.ofMantissaAndAccuracy m .exact) m := rfl

/-- The whole part of a quotient, with the remainder against half of the divisor. -/
theorem quotient (n : ℕ) {d : ℕ} (hd : 0 < d) :
    Represents (.ofMantissaAndAccuracy (n / d) (accuracyOfFraction (n % d) d)) ((n : ℚ) / d) := by
  have hd' : (0 : ℚ) < d := by exact_mod_cast hd
  have hsplit : (n : ℚ) / d = (n / d : ℕ) + (n % d : ℕ) / d := by
    have hn : (n : ℚ) = d * (n / d : ℕ) + (n % d : ℕ) := by exact_mod_cast (Nat.div_add_mod n d).symm
    field_simp
    exact hn
  have hlt : ((n % d : ℕ) : ℚ) < d := by exact_mod_cast Nat.mod_lt n hd
  rw [hsplit]
  generalize n / d = q at *
  generalize n % d = r at *
  rw [accuracyOfFraction]
  split
  · rename_i hzero
    simp [ExtendedMantissa.ofMantissaAndAccuracy, Represents, hzero]
  · rename_i hne
    have hpos : (0 : ℚ) < r := by exact_mod_cast Nat.pos_of_ne_zero hne
    have hfrac : 0 < (r : ℚ) / d ∧ (r : ℚ) / d < 1 := ⟨div_pos hpos hd', (div_lt_one hd').2 hlt⟩
    rcases lt_trichotomy (2 * r) d with h | h | h
    · have hhalf : (r : ℚ) / d < 1 / 2 := by
        rw [div_lt_div_iff₀ hd' (by norm_num)]
        have : (2 * r : ℚ) < d := by exact_mod_cast h
        linarith
      rw [compare_lt_iff_lt.2 h]
      exact ⟨by linarith, by linarith⟩
    · have hhalf : (r : ℚ) / d = 1 / 2 := by
        rw [div_eq_div_iff hd'.ne' (by norm_num)]
        have : (2 * r : ℚ) = d := by exact_mod_cast h
        linarith
      rw [compare_eq_iff_eq.2 h]
      exact congrArg ((q : ℚ) + ·) hhalf
    · have hhalf : 1 / 2 < (r : ℚ) / d := by
        rw [div_lt_div_iff₀ (by norm_num) hd']
        have : (d : ℚ) < 2 * r := by exact_mod_cast h
        linarith
      rw [compare_gt_iff_gt.2 h]
      exact ⟨by linarith, by linarith⟩

end Represents

/-! Numbers and the rationals around them. -/

/-- The magnitude of a floating-point number other than zero, with as long a mantissa as its exponent
allows. -/
structure Binary.Canonical (b : Binary) : Prop where
  pos : 0 < b.mantissa
  lt : b.mantissa < 2 ^ 53
  least : -1074 ≤ b.exponent
  most : b.exponent ≤ 971
  normal : 2 ^ 52 ≤ b.mantissa ∨ b.exponent = -1074
  narrow_iff : b.narrow = true ↔ b.mantissa = 2 ^ 52 ∧ -1074 < b.exponent

/-- The rational lies within half of a place of the number, or a quarter below a power of two, and
not at the end if the mantissa is odd. -/
structure Binary.Near (b : Binary) (v : ℚ) : Prop where
  low : b.mantissa - (if b.narrow then 1 / 4 else 1 / 2 : ℚ) ≤ v / 2 ^ b.exponent
  high : v / 2 ^ b.exponent ≤ b.mantissa + 1 / 2
  odd : b.mantissa % 2 = 1 → b.mantissa - 1 / 2 < v / 2 ^ b.exponent ∧
    v / 2 ^ b.exponent < b.mantissa + 1 / 2

/-! Exponents. -/

theorem two_zpow_pos (e : ℤ) : (0 : ℚ) < 2 ^ e := zpow_pos (by norm_num) e

theorem le_log_iff {v : ℚ} (hv : 0 < v) {e : ℤ} : e ≤ Int.log 2 v ↔ (2 : ℚ) ^ e ≤ v := by
  have h := Int.zpow_le_iff_le_log (b := 2) (by norm_num) hv (x := e)
  exact_mod_cast h.symm

theorem log_lt_iff {v : ℚ} (hv : 0 < v) {e : ℤ} : Int.log 2 v < e ↔ v < (2 : ℚ) ^ e := by
  rw [← not_le, le_log_iff hv, not_le]

/-- The exponent of the last place of a number with the leading digit of the rational. -/
theorem targetExponent_eq (e : ℤ) : Format.binary64.targetExponent e = max (e - 53) (-1074) := rfl

theorem targetExponent_mono {e e' : ℤ} (h : e ≤ e') :
    Format.binary64.targetExponent e ≤ Format.binary64.targetExponent e' := by
  rw [targetExponent_eq, targetExponent_eq]
  omega

/-- What a mantissa and an exponent show of a rational is enough to tell its last place. -/
theorem targetExponent_total {em : ExtendedMantissa} {e : ℤ} {v : ℚ} (hv : 0 < v)
    (h : Represents em (v / 2 ^ e))
    (he : e ≤ Format.binary64.targetExponent (Int.log 2 v + 1)) :
    Format.binary64.targetExponent (totalExponent em.mantissa e) =
      Format.binary64.targetExponent (Int.log 2 v + 1) := by
  obtain ⟨hlow, hhigh⟩ := h.bounds
  rw [le_div_iff₀ (two_zpow_pos e)] at hlow
  rw [div_lt_iff₀ (two_zpow_pos e)] at hhigh
  by_cases hm : em.mantissa = 0
  · have hlog : Int.log 2 v < e := by
      rw [log_lt_iff hv]
      rw [hm] at hhigh
      simpa using hhigh
    rw [targetExponent_eq] at he ⊢
    rw [targetExponent_eq, hm, totalExponent, Nat.log2_zero]
    omega
  · have hfloor : (2 : ℚ) ^ em.mantissa.log2 ≤ em.mantissa := by exact_mod_cast Nat.log2_self_le hm
    have hceil : (em.mantissa : ℚ) + 1 ≤ 2 ^ (em.mantissa.log2 + 1) := by
      exact_mod_cast Nat.lt_log2_self
    have hlog : Int.log 2 v = em.mantissa.log2 + e := by
      apply le_antisymm
      · rw [← Int.lt_add_one_iff, log_lt_iff hv, add_right_comm, zpow_add₀ (by norm_num)]
        refine hhigh.trans_le (mul_le_mul_of_nonneg_right ?_ (two_zpow_pos e).le)
        exact_mod_cast hceil
      · rw [le_log_iff hv, zpow_add₀ (by norm_num), zpow_natCast]
        exact (mul_le_mul_of_nonneg_right hfloor (two_zpow_pos e).le).trans hlow
    rw [hlog, totalExponent]
    congr 1
    omega

namespace Binary

variable {b : Binary} {v : ℚ}

theorem Near.pos (hb : b.Canonical) (h : b.Near v) : 0 < v := by
  have hone : (1 : ℚ) ≤ b.mantissa := by exact_mod_cast hb.pos
  have hquotient : 0 < v / 2 ^ b.exponent := by
    have hlow := h.low
    split at hlow <;> linarith
  exact (div_pos_iff_of_pos_right (two_zpow_pos _)).1 hquotient

/-- Either the last place of the rational is that of the number, or the rational lies below a power
of two, where the places are half as wide. -/
theorem Near.place (hb : b.Canonical) (h : b.Near v) :
    (Format.binary64.targetExponent (Int.log 2 v + 1) = b.exponent ∧
      (b.mantissa : ℚ) - 1 / 2 ≤ v / 2 ^ b.exponent) ∨
    (Format.binary64.targetExponent (Int.log 2 v + 1) = b.exponent - 1 ∧ -1074 < b.exponent ∧
      b.mantissa = 2 ^ 52 ∧ v / 2 ^ b.exponent < b.mantissa) := by
  have hv := h.pos hb
  have hpow := two_zpow_pos b.exponent
  have hmost : (b.mantissa : ℚ) + 1 ≤ 2 ^ 53 := by exact_mod_cast hb.lt
  have habove : Int.log 2 v < 53 + b.exponent := by
    rw [log_lt_iff hv, zpow_add₀ (by norm_num), ← div_lt_iff₀ hpow]
    have hhigh := h.high
    norm_num at hmost ⊢
    linarith
  have hleast := hb.least
  by_cases hnarrow : b.narrow = true
  · obtain ⟨hmantissa, hexponent⟩ := hb.narrow_iff.1 hnarrow
    have hlow := h.low
    rw [if_pos hnarrow] at hlow
    by_cases hbelow : v / 2 ^ b.exponent < b.mantissa
    · right
      have hlog : Int.log 2 v = 51 + b.exponent := by
        apply le_antisymm
        · rw [← Int.lt_add_one_iff, log_lt_iff hv, add_right_comm, zpow_add₀ (by norm_num),
            ← div_lt_iff₀ hpow]
          rw [hmantissa] at hbelow
          norm_num at hbelow ⊢
          exact hbelow
        · rw [le_log_iff hv, zpow_add₀ (by norm_num), ← le_div_iff₀ hpow]
          rw [hmantissa] at hlow
          norm_num at hlow ⊢
          linarith
      refine ⟨?_, hexponent, hmantissa, hbelow⟩
      rw [targetExponent_eq, hlog]
      omega
    · left
      rw [not_lt] at hbelow
      have hlog : 52 + b.exponent ≤ Int.log 2 v := by
        rw [le_log_iff hv, zpow_add₀ (by norm_num), ← le_div_iff₀ hpow]
        rw [hmantissa] at hbelow
        norm_num at hbelow ⊢
        exact hbelow
      refine ⟨?_, by linarith⟩
      rw [targetExponent_eq]
      omega
  · left
    have hlow := h.low
    rw [if_neg hnarrow] at hlow
    refine ⟨?_, hlow⟩
    rw [targetExponent_eq]
    rcases eq_or_lt_of_le hleast with hexponent | hexponent
    · omega
    · have hwide : 2 ^ 52 + 1 ≤ b.mantissa := by
        have hnormal := hb.normal.resolve_right hexponent.ne'
        have hne : b.mantissa ≠ 2 ^ 52 := fun heq => hnarrow (hb.narrow_iff.2 ⟨heq, hexponent⟩)
        omega
      have hwide' : (2 : ℚ) ^ 52 + 1 ≤ b.mantissa := by exact_mod_cast hwide
      have hlog : 52 + b.exponent ≤ Int.log 2 v := by
        rw [le_log_iff hv, zpow_add₀ (by norm_num), ← le_div_iff₀ hpow]
        norm_num
        linarith
      omega

end Binary

/-! Rounding. -/

theorem shiftToTargetExponent_eq {m : ℕ} {e : ℤ} {a : Accuracy} {v : ℚ} (hv : 0 < v)
    (h : Represents (.ofMantissaAndAccuracy m a) (v / 2 ^ e)) {t : ℤ}
    (ht : Format.binary64.targetExponent (Int.log 2 v + 1) = t) (he : e ≤ t) :
    ∃ em, shiftToTargetExponent Format.binary64 m e a = (em, t) ∧ Represents em (v / 2 ^ t) := by
  have hm : (ExtendedMantissa.ofMantissaAndAccuracy m a).mantissa = m := by
    cases a with
    | exact => rfl
    | inexact o => cases o <;> rfl
  have htarget := targetExponent_total hv h (ht ▸ he)
  rw [hm, ht] at htarget
  have hsum : e + (t - e).toNat = t := by omega
  refine ⟨ExtendedMantissa.ofMantissaAndAccuracy m a >>> (t - e).toNat, ?_, ?_⟩
  · rw [shiftToTargetExponent, htarget, shiftToExponent, hsum]
  · have hshift := h.shiftRight (t - e).toNat
    rwa [div_div, ← zpow_natCast, ← zpow_add₀ (by norm_num), hsum] at hshift

theorem shiftToTargetExponent_exact {m : ℕ} {e : ℤ}
    (h : Format.binary64.targetExponent (totalExponent m e) ≤ e) :
    shiftToTargetExponent Format.binary64 m e .exact = (⟨m, false, false⟩, e) := by
  have hzero : (Format.binary64.targetExponent (totalExponent m e) - e).toNat = 0 := by omega
  rw [shiftToTargetExponent, shiftToExponent, hzero]
  simp only [Nat.cast_zero, add_zero]
  rfl

theorem Binary.Canonical.target {b : Binary} (hb : b.Canonical) :
    Format.binary64.targetExponent (totalExponent b.mantissa b.exponent) ≤ b.exponent := by
  have hlog : b.mantissa.log2 < 53 := (Nat.log2_lt hb.pos.ne').2 hb.lt
  have hleast := hb.least
  rw [targetExponent_eq, totalExponent]
  omega

/-- A rational near a number is rounded to the number. -/
theorem roundWithAccuracy_near {b : Binary} (hb : b.Canonical) {v : ℚ} (hv : b.Near v)
    (sign : Sign) {m : ℕ} {e : ℤ} {a : Accuracy}
    (h : Represents (.ofMantissaAndAccuracy m a) (v / 2 ^ e))
    (he : e ≤ Format.binary64.targetExponent (Int.log 2 v + 1)) :
    roundWithAccuracy Format.binary64 sign m e a = .finite sign b.mantissa b.exponent hb.pos := by
  rcases hv.place hb with ⟨hplace, hlow⟩ | ⟨hplace, hexponent, hmantissa, hbelow⟩
  · obtain ⟨em, hshift, hem⟩ := shiftToTargetExponent_eq (hv.pos hb) h hplace (hplace ▸ he)
    have hrounded : em.roundedMantissa = b.mantissa := hem.roundedMantissa_eq hlow hv.high hv.odd
    simp only [roundWithAccuracy, hshift, hrounded, shiftToTargetExponent_exact hb.target,
      hb.pos.ne', dif_neg, not_false_eq_true]
  · -- half a place below the power of two, the mantissa is rounded up and overflows
    obtain ⟨em, hshift, hem⟩ := shiftToTargetExponent_eq (hv.pos hb) h hplace (hplace ▸ he)
    have hdouble : v / 2 ^ (b.exponent - 1) = 2 * (v / 2 ^ b.exponent) := by
      rw [zpow_sub_one₀ (by norm_num)]
      field_simp
    have hlow := hv.low
    rw [if_pos (hb.narrow_iff.2 ⟨hmantissa, hexponent⟩)] at hlow
    rw [hmantissa] at hlow hbelow
    have hrounded : em.roundedMantissa = 2 ^ 53 := by
      rw [hdouble] at hem
      refine hem.roundedMantissa_eq ?_ ?_ (by norm_num)
      · push_cast at hlow ⊢
        linarith
      · push_cast at hbelow ⊢
        linarith
    have hover : shiftToTargetExponent Format.binary64 (2 ^ 53) (b.exponent - 1) .exact =
        (⟨2 ^ 52, false, false⟩, b.exponent) := by
      have htarget : Format.binary64.targetExponent (totalExponent (2 ^ 53) (b.exponent - 1)) =
          b.exponent := by
        rw [targetExponent_eq, totalExponent, Nat.log2_two_pow]
        omega
      have hone : (b.exponent - (b.exponent - 1)).toNat = 1 := by omega
      have hsum : b.exponent - 1 + (1 : ℕ) = b.exponent := by omega
      rw [shiftToTargetExponent, htarget, shiftToExponent, hone, hsum]
      rfl
    simp only [roundWithAccuracy, hshift, hrounded, hover, hmantissa]
    rfl

theorem mul_near {b : Binary} (hb : b.Canonical) {s₁ s₂ : Sign} {m₁ m₂ : ℕ} {e₁ e₂ : ℤ}
    {h₁ : 0 < m₁} {h₂ : 0 < m₂} (hwide : 2 ^ 52 ≤ m₁ * m₂)
    (hv : b.Near ((m₁ * 2 ^ e₁) * (m₂ * 2 ^ e₂))) :
    UnpackedFloat.mul Format.binary64 (.finite s₁ m₁ e₁ h₁) (.finite s₂ m₂ e₂ h₂) =
      .finite (s₁ * s₂) b.mantissa b.exponent hb.pos := by
  have hproduct : (m₁ * 2 ^ e₁ * (m₂ * 2 ^ e₂) : ℚ) = (m₁ * m₂ : ℕ) * 2 ^ (e₁ + e₂) := by
    rw [zpow_add₀ (by norm_num)]
    push_cast
    ring
  rw [hproduct] at hv
  refine roundWithAccuracy_near hb hv _ ?_ ?_
  · rw [mul_div_cancel_right₀ _ (two_zpow_pos _).ne']
    exact .exact _
  · have hlog : 52 + (e₁ + e₂) ≤ Int.log 2 (((m₁ * m₂ : ℕ) : ℚ) * 2 ^ (e₁ + e₂)) := by
      rw [le_log_iff (hv.pos hb), zpow_add₀ (by norm_num)]
      refine mul_le_mul_of_nonneg_right ?_ (two_zpow_pos _).le
      exact_mod_cast hwide
    rw [targetExponent_eq]
    omega

theorem div_near {b : Binary} (hb : b.Canonical) {s₁ s₂ : Sign} {m₁ m₂ : ℕ} {e₁ e₂ : ℤ}
    {h₁ : 0 < m₁} {h₂ : 0 < m₂} (hv : b.Near ((m₁ * 2 ^ e₁) / (m₂ * 2 ^ e₂))) :
    UnpackedFloat.div Format.binary64 (.finite s₁ m₁ e₁ h₁) (.finite s₂ m₂ e₂ h₂) =
      .finite (s₁ / s₂) b.mantissa b.exponent hb.pos := by
  obtain ⟨t, ht⟩ : ∃ t, t = min (e₁ - e₂)
    (Format.binary64.targetExponent (totalExponent m₁ e₁ - totalExponent m₂ e₂)) := ⟨_, rfl⟩
  have hdiv : UnpackedFloat.div Format.binary64 (.finite s₁ m₁ e₁ h₁) (.finite s₂ m₂ e₂ h₂) =
      roundWithAccuracy Format.binary64 (s₁ / s₂) ((m₁ <<< (e₁ - e₂ - t).toNat) / m₂) t
        (accuracyOfFraction ((m₁ <<< (e₁ - e₂ - t).toNat) % m₂) m₂) := by
    rw [ht]
    rfl
  have hm₁ : (0 : ℚ) < m₁ := by exact_mod_cast h₁
  have hm₂ : (0 : ℚ) < m₂ := by exact_mod_cast h₂
  rw [hdiv]
  refine roundWithAccuracy_near hb hv _ ?_ ?_
  · have hquotient : (m₁ * 2 ^ e₁) / (m₂ * 2 ^ e₂) / 2 ^ t =
        ((m₁ <<< (e₁ - e₂ - t).toNat : ℕ) : ℚ) / m₂ := by
      have hshift : ((m₁ <<< (e₁ - e₂ - t).toNat : ℕ) : ℚ) = m₁ * 2 ^ (e₁ - e₂ - t) := by
        have hnat : ((e₁ - e₂ - t).toNat : ℤ) = e₁ - e₂ - t := by omega
        rw [Nat.shiftLeft_eq]
        push_cast
        rw [← zpow_natCast, hnat]
      rw [hshift, zpow_sub₀ (by norm_num), zpow_sub₀ (by norm_num)]
      field_simp
    rw [hquotient]
    exact .quotient _ h₂
  · have hlog : totalExponent m₁ e₁ - totalExponent m₂ e₂ ≤
        Int.log 2 ((m₁ * 2 ^ e₁ : ℚ) / (m₂ * 2 ^ e₂)) + 1 := by
      rw [← sub_le_iff_le_add, le_log_iff (hv.pos hb), le_div_iff₀ (mul_pos hm₂ (two_zpow_pos _))]
      have hfloor : (2 : ℚ) ^ (m₁.log2 : ℤ) ≤ m₁ := by
        exact_mod_cast Nat.log2_self_le h₁.ne'
      have hceil : (m₂ : ℚ) ≤ 2 ^ (m₂.log2 + 1 : ℤ) := by
        exact_mod_cast Nat.lt_log2_self.le
      calc (2 : ℚ) ^ (totalExponent m₁ e₁ - totalExponent m₂ e₂ - 1) * (m₂ * 2 ^ e₂)
          ≤ 2 ^ (totalExponent m₁ e₁ - totalExponent m₂ e₂ - 1) *
              (2 ^ (m₂.log2 + 1 : ℤ) * 2 ^ e₂) :=
            mul_le_mul_of_nonneg_left
              (mul_le_mul_of_nonneg_right hceil (two_zpow_pos _).le) (two_zpow_pos _).le
        _ = 2 ^ (m₁.log2 : ℤ) * 2 ^ e₁ := by
            rw [← zpow_add₀ (by norm_num), ← zpow_add₀ (by norm_num), ← zpow_add₀ (by norm_num)]
            congr 1
            rw [totalExponent, totalExponent]
            ring
        _ ≤ m₁ * 2 ^ e₁ := mul_le_mul_of_nonneg_right hfloor (two_zpow_pos _).le
    have hmono := targetExponent_mono hlog
    omega

/-! Numbers near a rational. -/

theorem exists_nearest_nat {q : ℚ} (hq : 0 ≤ q) : ∃ n : ℕ, (n : ℚ) - 1 / 2 ≤ q ∧ q ≤ n + 1 / 2 ∧
    (n % 2 = 1 → (n : ℚ) - 1 / 2 < q ∧ q < n + 1 / 2) := by
  obtain ⟨k, hk⟩ : ∃ k, k = ⌊q⌋₊ := ⟨_, rfl⟩
  have hlow : (k : ℚ) ≤ q := hk ▸ Nat.floor_le hq
  have hhigh : q < k + 1 := hk ▸ Nat.lt_floor_add_one q
  rcases lt_trichotomy q (k + 1 / 2) with hlt | heq | hgt
  · exact ⟨k, by linarith, hlt.le, fun _ => ⟨by linarith, hlt⟩⟩
  · rcases Nat.mod_two_eq_zero_or_one k with heven | hodd
    · exact ⟨k, by linarith, heq.le, fun h => by omega⟩
    · refine ⟨k + 1, ?_, ?_, fun h => by omega⟩
      · push_cast
        linarith
      · push_cast
        linarith
  · refine ⟨k + 1, ?_, ?_, fun _ => ⟨?_, ?_⟩⟩ <;> push_cast <;> linarith

namespace Binary

/-- The number with a mantissa of full width. -/
def wide (n : ℕ) (e : ℤ) : Binary := ⟨n, e, n = 2 ^ 52⟩

theorem canonical_wide {n : ℕ} {e : ℤ} (hlow : 2 ^ 52 ≤ n) (hlt : n < 2 ^ 53) (hleast : -1074 < e)
    (hmost : e ≤ 971) : (wide n e).Canonical where
  pos := (Nat.two_pow_pos 52).trans_le hlow
  lt := hlt
  least := hleast.le
  most := hmost
  normal := Or.inl hlow
  narrow_iff := by
    rw [wide, decide_eq_true_iff]
    exact (and_iff_left hleast).symm

theorem near_wide {n : ℕ} {e : ℤ} {v : ℚ} (hlow : (n : ℚ) - 1 / 2 ≤ v / 2 ^ e)
    (hhigh : v / 2 ^ e ≤ n + 1 / 2)
    (hodd : n % 2 = 1 → (n : ℚ) - 1 / 2 < v / 2 ^ e ∧ v / 2 ^ e < n + 1 / 2)
    (hplace : (2 : ℚ) ^ 52 ≤ v / 2 ^ e) : (wide n e).Near v where
  low := by
    rw [wide]
    simp only [decide_eq_true_eq]
    split
    · rename_i hn
      rw [hn]
      push_cast
      linarith
    · exact hlow
  high := hhigh
  odd := hodd

/-- Half a place below a power of two, a rational is near the power. -/
theorem near_wide_next {e : ℤ} {v : ℚ} (hlow : (2 : ℚ) ^ 53 - 1 / 2 ≤ v / 2 ^ e)
    (hhigh : v / 2 ^ e < 2 ^ 53) : (wide (2 ^ 52) (e + 1)).Near v := by
  have hhalf : v / 2 ^ (e + 1) = v / 2 ^ e / 2 := by
    rw [zpow_add_one₀ (by norm_num), div_div]
  refine ⟨?_, ?_, fun hodd => absurd hodd (by decide : ¬ 2 ^ 52 % 2 = 1)⟩
  all_goals
    rw [wide, hhalf]
    norm_num at hlow hhigh ⊢
    linarith

/-- Half a place above the greatest number. -/
def limit : ℚ := (2 ^ 53 - 1 / 2) * 2 ^ (971 : ℤ)

/-- A rational from one up to the limit is near some number, which exceeds it by no more than its
2 ^ 53rd part. -/
theorem exists_near {v : ℚ} (hone : 1 ≤ v) (hmost : v < limit) :
    ∃ b : Binary, b.Canonical ∧ b.Near v ∧ 2 ^ 52 ≤ b.mantissa ∧ -52 ≤ b.exponent ∧
      b.mantissa * 2 ^ b.exponent ≤ v * (1 + 1 / 2 ^ 53) := by
  have hv : 0 < v := zero_lt_one.trans_le hone
  obtain ⟨e, he⟩ : ∃ e, e = Int.log 2 v - 52 := ⟨_, rfl⟩
  have hpow := two_zpow_pos e
  have hplace : (2 : ℚ) ^ 52 ≤ v / 2 ^ e := by
    rw [le_div_iff₀ hpow, ← zpow_natCast, ← zpow_add₀ (by norm_num), ← le_log_iff hv]
    omega
  have hshort : v / 2 ^ e < 2 ^ 53 := by
    rw [div_lt_iff₀ hpow, ← zpow_natCast, ← zpow_add₀ (by norm_num), ← log_lt_iff hv]
    omega
  have hleast : -52 ≤ e := by
    have hzero : 0 ≤ Int.log 2 v := by
      rw [le_log_iff hv, zpow_zero]
      exact hone
    omega
  have hlog : Int.log 2 v < 53 + 971 := by
    rw [log_lt_iff hv, zpow_add₀ (by norm_num)]
    exact hmost.trans (mul_lt_mul_of_pos_right (by norm_num) (two_zpow_pos _))
  obtain ⟨n, hlow, hhigh, hodd⟩ := exists_nearest_nat (div_pos hv hpow).le
  have hvalue : (n : ℚ) * 2 ^ e ≤ v * (1 + 1 / 2 ^ 53) := by
    calc (n : ℚ) * 2 ^ e ≤ v / 2 ^ e * (1 + 1 / 2 ^ 53) * 2 ^ e := by
          refine mul_le_mul_of_nonneg_right ?_ hpow.le
          norm_num at hplace ⊢
          linarith
      _ = v * (1 + 1 / 2 ^ 53) := by
          rw [mul_right_comm, div_mul_cancel₀ v hpow.ne']
  have hfloor : 2 ^ 52 ≤ n := by
    have hlt : (2 : ℚ) ^ 52 < n + 1 := by linarith
    exact Nat.lt_succ_iff.1 (by exact_mod_cast hlt)
  have hceil : n ≤ 2 ^ 53 := by
    have hlt : (n : ℚ) < 2 ^ 53 + 1 := by linarith
    exact Nat.lt_succ_iff.1 (by exact_mod_cast hlt)
  rcases hceil.lt_or_eq with hlt | rfl
  · exact ⟨wide n e, canonical_wide hfloor hlt (by omega) (by omega), near_wide hlow hhigh hodd hplace,
      hfloor, hleast, hvalue⟩
  · push_cast at hlow hvalue
    have hnext : e < 971 := by
      by_contra hge
      obtain rfl : e = 971 := by omega
      rw [le_div_iff₀ hpow] at hlow
      exact absurd hmost (not_lt.2 hlow)
    refine ⟨wide (2 ^ 52) (e + 1), canonical_wide le_rfl (by decide) (by omega) (by omega),
      near_wide_next hlow hshort, le_rfl, (by omega : -52 ≤ e + 1), ?_⟩
    have hpower : ((2 ^ 52 : ℕ) : ℚ) * 2 ^ (e + 1) = 2 ^ 53 * 2 ^ e := by
      rw [zpow_add_one₀ (by norm_num)]
      norm_num
      ring
    exact hpower.trans_le hvalue

end Binary
end PlanFeedback.Decimal
