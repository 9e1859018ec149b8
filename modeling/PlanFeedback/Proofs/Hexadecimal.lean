import Mathlib.Data.List.Basic
import PlanFeedback.Hash.Digest

/-!
The hexadecimal spellings of a digest. A digest is read from its own spelling, from the same in
capitals, and from those with a plus sign in place of the first of two digits, if that is a zero.
-/
namespace PlanFeedback

namespace Text

/-! Digits. -/

theorem hexValue?_hexDigit {n : Nat} (h : n < 16) : hexValue? (hexDigit n) = some n := by
  have hall : ∀ n < 16, hexValue? (hexDigit n) = some n := by decide
  exact hall n h

theorem hexDigit_inj {n m : Nat} (hn : n < 16) (hm : m < 16) (h : hexDigit n = hexDigit m) :
    n = m := by
  have hvalue := hexValue?_hexDigit hn
  rw [h, hexValue?_hexDigit hm] at hvalue
  exact (Option.some.inj hvalue).symm

theorem toNat_hexDigit_lt {n : Nat} (h : n < 16) : (hexDigit n).toNat < 128 := by
  have hall : ∀ n < 16, (hexDigit n).toNat < 128 := by decide
  exact hall n h

theorem hexDigit_ne_plus {n : Nat} (h : n < 16) : hexDigit n ≠ '+' := by
  have hall : ∀ n < 16, hexDigit n ≠ '+' := by decide
  exact hall n h

theorem forall_ascii {P : Char → Prop} (h : ∀ k < 128, P (Char.ofNat k)) {c : Char}
    (hc : c.toNat < 128) : P c := by
  have hP := h c.toNat hc
  rwa [Char.ofNat_toNat] at hP

theorem toNat_le_of_le {c d : Char} (h : c ≤ d) : c.toNat ≤ d.toNat :=
  UInt32.le_iff_toNat_le.1 (Char.le_def.1 h)

theorem hexValue?_of_not_ascii {c : Char} (h : 128 ≤ c.toNat) : hexValue? c = none := by
  have hnot : ∀ d : Char, d.toNat < 128 → ¬ c ≤ d := by
    intro d hd hle
    have := toNat_le_of_le hle
    omega
  rw [hexValue?, if_neg fun hc => hnot '9' (by decide) hc.2,
    if_neg fun hc => hnot 'f' (by decide) hc.2, if_neg fun hc => hnot 'F' (by decide) hc.2]

theorem toLower_of_not_ascii {c : Char} (h : 128 ≤ c.toNat) : c.toLower = c := by
  apply dif_neg
  rintro ⟨-, hle⟩
  have := toNat_le_of_le (d := 'Z') (Char.le_def.2 hle)
  have hZ : 'Z'.toNat = 90 := rfl
  omega

/-- A sign has the value of a digit if in lower case it is that digit. -/
theorem hexValue?_eq_some_iff {c : Char} {n : Nat} (hn : n < 16) :
    hexValue? c = some n ↔ c.toLower = hexDigit n := by
  by_cases hc : c.toNat < 128
  · have hall : ∀ k < 128, ∀ n < 16,
        hexValue? (Char.ofNat k) = some n ↔ (Char.ofNat k).toLower = hexDigit n := by
      decide +kernel
    exact forall_ascii (P := fun c => ∀ n < 16, hexValue? c = some n ↔ c.toLower = hexDigit n)
      hall hc n hn
  · have hlarge : 128 ≤ c.toNat := by omega
    rw [hexValue?_of_not_ascii hlarge, toLower_of_not_ascii hlarge]
    constructor
    · intro h
      cases h
    · rintro rfl
      exact absurd (toNat_hexDigit_lt hn) hc

theorem hexValue?_lt {c : Char} {n : Nat} (h : hexValue? c = some n) : n < 16 := by
  by_cases hc : c.toNat < 128
  · have hall : ∀ k < 128, ∀ n ∈ hexValue? (Char.ofNat k), n < 16 := by
      decide +kernel
    exact forall_ascii (P := fun c => ∀ n ∈ hexValue? c, n < 16) hall hc n h
  · rw [hexValue?_of_not_ascii (by omega)] at h
    cases h

def hexDigits (b : UInt8) : List Char := [hexDigit (b.toNat / 16), hexDigit (b.toNat % 16)]

theorem toList_toHex (bytes : Bytes) : (toHex bytes).toList = bytes.flatMap hexDigits :=
  String.toList_ofList

theorem length_flatMap_hexDigits (bytes : Bytes) :
    (bytes.flatMap hexDigits).length = 2 * bytes.length := by
  induction bytes with
  | nil => rfl
  | cons b bytes ih =>
      rw [List.flatMap_cons, List.length_append, ih, List.length_cons]
      exact Nat.add_comm _ _

theorem exists_hexDigit_of_mem {bytes : Bytes} {c : Char} (h : c ∈ bytes.flatMap hexDigits) :
    ∃ n < 16, c = hexDigit n := by
  obtain ⟨b, -, hc⟩ := List.mem_flatMap.1 h
  have hb : b.toNat < 256 := b.toNat_lt
  rcases List.mem_cons.1 hc with rfl | hc
  · exact ⟨_, by omega, rfl⟩
  · exact ⟨_, by omega, List.mem_singleton.1 hc⟩

end Text

namespace Hash.Digest

open Text

/-! Pairs of signs. -/

def firstDigit (c : Char) : Char := if c = '+' then '0' else c.toLower

/-- The digits that the signs of a text stand for, pair by pair. -/
def digitsOf : List Char → List Char
  | [] => []
  | [c] => [c.toLower]
  | a :: b :: rest => firstDigit a :: b.toLower :: digitsOf rest

theorem firstValue?_eq_some_iff {c : Char} {n : Nat} (hn : n < 16) :
    (if c = '+' then some 0 else hexValue? c) = some n ↔ firstDigit c = hexDigit n := by
  rw [firstDigit]
  split
  · constructor
    · intro h
      obtain rfl := Option.some.inj h
      rfl
    · intro h
      exact congrArg some (hexDigit_inj (by decide) hn h)
  · exact hexValue?_eq_some_iff hn

theorem firstValue?_lt {c : Char} {n : Nat}
    (h : (if c = '+' then some 0 else hexValue? c) = some n) : n < 16 := by
  split at h
  · obtain rfl := Option.some.inj h
    decide
  · exact hexValue?_lt h

theorem byteOfPair?_eq (a b : Char) :
    byteOfPair? a b = (if a = '+' then some 0 else hexValue? a).bind fun high =>
      (hexValue? b).bind fun low => some (UInt8.ofNat (high * 16 + low)) := by
  rw [byteOfPair?]
  split <;> rfl

theorem byteOfPair?_eq_some_iff {a b : Char} {byte : UInt8} :
    byteOfPair? a b = some byte ↔ [firstDigit a, b.toLower] = hexDigits byte := by
  have hbyte : byte.toNat < 256 := byte.toNat_lt
  have hhigh : byte.toNat / 16 < 16 := by omega
  have hlow : byte.toNat % 16 < 16 := by omega
  rw [hexDigits, List.cons.injEq, List.cons.injEq, ← firstValue?_eq_some_iff hhigh,
    ← hexValue?_eq_some_iff hlow]
  simp only [byteOfPair?_eq, Option.bind_eq_some_iff, Option.some.injEq, and_true]
  constructor
  · rintro ⟨high, ha, low, hb, rfl⟩
    have hhigh' := firstValue?_lt ha
    have hlow' := hexValue?_lt hb
    have hvalue : (UInt8.ofNat (high * 16 + low)).toNat = high * 16 + low := by
      rw [UInt8.toNat_ofNat']
      omega
    rw [hvalue, ha, hb]
    exact ⟨congrArg some (by omega), congrArg some (by omega)⟩
  · rintro ⟨ha, hb⟩
    refine ⟨_, ha, _, hb, ?_⟩
    rw [Nat.div_add_mod']
    exact UInt8.ofNat_toNat

theorem bytesOfPairs?_cons {a b : Char} {rest : List Char} {bytes : Bytes} :
    bytesOfPairs? (a :: b :: rest) = some bytes ↔ ∃ byte bytes',
      byteOfPair? a b = some byte ∧ bytesOfPairs? rest = some bytes' ∧ byte :: bytes' = bytes := by
  simp only [bytesOfPairs?, Option.bind_eq_bind, Option.bind_eq_some_iff, Option.pure_def,
    Option.some.injEq, exists_and_left]

theorem bytesOfPairs?_eq_some_iff {text : List Char} {bytes : Bytes} :
    bytesOfPairs? text = some bytes ↔ digitsOf text = bytes.flatMap hexDigits := by
  induction text using bytesOfPairs?.induct generalizing bytes with
  | case1 =>
      cases bytes with
      | nil => simp [bytesOfPairs?, digitsOf]
      | cons byte bytes => simp [bytesOfPairs?, digitsOf, hexDigits]
  | case2 c =>
      cases bytes with
      | nil => simp [bytesOfPairs?, digitsOf]
      | cons byte bytes => simp [bytesOfPairs?, digitsOf, hexDigits]
  | case3 a b rest ih =>
      rw [bytesOfPairs?_cons]
      constructor
      · rintro ⟨byte, bytes, hpair, hrest, rfl⟩
        rw [List.flatMap_cons, ← byteOfPair?_eq_some_iff.1 hpair, ← ih.1 hrest]
        rfl
      · intro h
        cases bytes with
        | nil => cases h
        | cons byte bytes =>
            have hsplit : [firstDigit a, b.toLower] ++ digitsOf rest =
                hexDigits byte ++ bytes.flatMap hexDigits := h
            obtain ⟨hpair, hrest⟩ := List.append_inj hsplit rfl
            exact ⟨byte, bytes, byteOfPair?_eq_some_iff.2 hpair, ih.2 hrest, rfl⟩

theorem length_digitsOf (text : List Char) : (digitsOf text).length = text.length := by
  induction text using digitsOf.induct with
  | case1 => rfl
  | case2 c => rfl
  | case3 a b rest ih => simp only [digitsOf, List.length_cons, ih]

/-- Without plus signs the digits are the signs in lower case. -/
theorem digitsOf_of_not_mem {text : List Char} (h : '+' ∉ text) :
    digitsOf text = text.map Char.toLower := by
  induction text using digitsOf.induct with
  | case1 => rfl
  | case2 c => rfl
  | case3 a b rest ih =>
      rw [List.mem_cons, List.mem_cons, not_or, not_or] at h
      rw [digitsOf, ih h.2.2, firstDigit, if_neg (Ne.symm h.1), List.map_cons, List.map_cons]

/-- Each sign stands for the same in lower case, or is a plus sign. -/
theorem eq_plus_or_toLower_mem {text : List Char} {c : Char} (h : c ∈ text) :
    c = '+' ∨ c.toLower ∈ digitsOf text := by
  induction text using digitsOf.induct with
  | case1 => cases h
  | case2 d =>
      obtain rfl := List.mem_singleton.1 h
      exact Or.inr List.mem_cons_self
  | case3 a b rest ih =>
      rw [digitsOf, List.mem_cons, List.mem_cons]
      rcases List.mem_cons.1 h with rfl | h
      · by_cases hc : c = '+'
        · exact Or.inl hc
        · exact Or.inr (Or.inl (by rw [firstDigit, if_neg hc]))
      · rcases List.mem_cons.1 h with rfl | h
        · exact Or.inr (Or.inr (Or.inl rfl))
        · exact (ih h).imp_right fun hrest => Or.inr (Or.inr hrest)

/-! Digests. -/

def spelling (text : String) : String := String.ofList (digitsOf text.toList)

theorem toList_toHex (d : Digest) : d.toHex.toList = d.bytes.flatMap hexDigits :=
  Text.toList_toHex d.bytes

theorem ofHex?_eq_some_iff {text : String} {d : Digest} :
    ofHex? text = some d ↔ spelling text = d.toHex := by
  have hlist : spelling text = d.toHex ↔ digitsOf text.toList = d.bytes.flatMap hexDigits := by
    rw [← toList_toHex, ← String.toList_inj, spelling, String.toList_ofList]
  rw [hlist, ← bytesOfPairs?_eq_some_iff, ofHex?, Option.bind_eq_some_iff]
  constructor
  · rintro ⟨bytes, hbytes, hd⟩
    rw [ofBytes?] at hd
    split at hd
    · obtain rfl := Option.some.inj hd
      exact hbytes
    · cases hd
  · intro hbytes
    exact ⟨d.bytes, hbytes, dif_pos d.length_eq⟩

theorem plus_not_mem_toHex (d : Digest) : '+' ∉ d.toHex.toList := by
  rw [toList_toHex]
  intro h
  obtain ⟨n, hn, hplus⟩ := exists_hexDigit_of_mem h
  exact hexDigit_ne_plus hn hplus.symm

/-- A text that in lower case spells a digest is read as that digest, and no other text without a
plus sign is. -/
theorem toLower_eq_toHex_iff {text : String} {d : Digest} :
    text.toLower = d.toHex ↔ ofHex? text = some d ∧ '+' ∉ text.toList := by
  have hlower : text.toLower.toList = text.toList.map Char.toLower := String.toList_map
  have hspelling : '+' ∉ text.toList → spelling text = text.toLower := by
    intro hplus
    rw [← String.toList_inj, spelling, String.toList_ofList, hlower, digitsOf_of_not_mem hplus]
  constructor
  · intro h
    have hplus : '+' ∉ text.toList := by
      intro hmem
      apply plus_not_mem_toHex d
      rw [← h, hlower]
      exact List.mem_map.2 ⟨'+', hmem, rfl⟩
    exact ⟨ofHex?_eq_some_iff.2 ((hspelling hplus).trans h), hplus⟩
  · rintro ⟨h, hplus⟩
    rw [← hspelling hplus]
    exact ofHex?_eq_some_iff.1 h

theorem toLower_toHex (d : Digest) : d.toHex.toLower = d.toHex := by
  rw [← String.toList_inj]
  change (d.toHex.map Char.toLower).toList = d.toHex.toList
  rw [String.toList_map, toList_toHex]
  refine (List.map_congr_left (g := id) fun c hc => ?_).trans (List.map_id _)
  obtain ⟨n, hn, rfl⟩ := exists_hexDigit_of_mem hc
  exact (hexValue?_eq_some_iff hn).1 (hexValue?_hexDigit hn)

theorem ofHex?_toHex (d : Digest) : ofHex? d.toHex = some d :=
  (toLower_eq_toHex_iff.1 (toLower_toHex d)).1

/-- A text is read as the digest that is spelt with the digits for which it stands. Without plus signs
these are its signs in lower case, so that the spelling of a digest is the only one in lower case;
each text that is read has thirty-two signs, which are digits in either case or plus signs. -/
theorem ofHex?_spellings (text : String) (d : Digest) :
    (ofHex? text = some d ↔ spelling text = d.toHex) ∧
    (text.toLower = d.toHex ↔ ofHex? text = some d ∧ '+' ∉ text.toList) ∧
    ofHex? d.toHex = some d ∧
    (ofHex? text = some d →
      text.length = 32 ∧ ∀ c ∈ text.toList, c = '+' ∨ (hexValue? c).isSome = true) := by
  refine ⟨ofHex?_eq_some_iff, toLower_eq_toHex_iff, ofHex?_toHex d, fun h => ?_⟩
  have hdigits : digitsOf text.toList = d.bytes.flatMap hexDigits := by
    rw [← toList_toHex, ← ofHex?_eq_some_iff.1 h, spelling, String.toList_ofList]
  constructor
  · rw [← String.length_toList, ← length_digitsOf, hdigits, length_flatMap_hexDigits, d.length_eq]
  · intro c hc
    refine (eq_plus_or_toLower_mem hc).imp_right fun hlower => ?_
    rw [hdigits] at hlower
    obtain ⟨n, hn, hdigit⟩ := exists_hexDigit_of_mem hlower
    rw [(hexValue?_eq_some_iff hn).2 hdigit]
    rfl

/-- Capitals, and a plus sign for a zero. -/
theorem ofHex?_spellings_mixed :
    let text := "+F0123456789ABCDEFabcdef01234567"
    let d : Digest := ⟨[0x0F, 0x01, 0x23, 0x45, 0x67, 0x89, 0xAB, 0xCD, 0xEF, 0xAB, 0xCD, 0xEF, 0x01,
      0x23, 0x45, 0x67], rfl⟩
    ofHex? text = some d ∧ spelling text = d.toHex ∧
      text.length = 32 ∧ ∀ c ∈ text.toList, c = '+' ∨ (hexValue? c).isSome = true := by
  intro text d
  have h : ofHex? text = some d := by decide +kernel
  obtain ⟨hspelling, -, -, haccepted⟩ := ofHex?_spellings text d
  exact ⟨h, hspelling.1 h, haccepted h⟩

/-- A text of signs and digits is read as a digest that it does not spell in either case. -/
theorem ofHex?_signed :
    let text := "+f+f+f+f+f+f+f+f+f+f+f+f+f+f+f+f"
    let d : Digest := ⟨List.replicate 16 0x0F, rfl⟩
    ofHex? text = some d ∧ text.toLower ≠ d.toHex := by
  decide +kernel

end Hash.Digest

end PlanFeedback
