import PlanFeedback.Proofs.Blanking

/-!
A normal form holds no literals: the scanner reads the tokens that were kept as it did before, and
finds nothing to replace.
-/
namespace PlanFeedback.Query

open Text

theorem TokenForm.unique {a : Bool} {c : UInt8} {rest : Bytes} {t t' : Token}
    (h : TokenForm a c rest t) (h' : TokenForm a c rest t') : t = t' := by
  rw [← h.nextToken, h'.nextToken]

theorem blank_startsQuote {a : Bool} {y : Bytes} (h : startsQuote (blank a y) = true) :
    ∃ w, y = 0x27 :: w ∧ closingLength? false w = none ∧ blank a y = 0x27 :: blank false w := by
  obtain ⟨w, rfl⟩ := startsQuote_eq_true ((blanked_blank a y).quote h)
  refine ⟨w, rfl, ?_⟩
  cases hc : closingLength? false w with
  | some n =>
      have hn : literalLength? (0x27 :: w) = some (n + 1) := by simp [literalLength?, hc]
      have hform : TokenForm a 0x27 w (.literal (n + 1)) := .opened rfl hn
      have hle := closingLength?_le hc
      rw [← List.take_append_drop n w] at h hform
      rw [blank_token hform (by rw [List.length_take, Nat.min_eq_left hle]; rfl)] at h
      cases h
  | none =>
      have hform : TokenForm a 0x27 ([] ++ w) (.code 1 false) :=
        .stray (Or.inl rfl) (by simp [literalLength?, hc])
      exact ⟨rfl, blank_token hform rfl⟩

theorem blank_startsUnicodeQuote {a : Bool} {y : Bytes}
    (h : startsUnicodeQuote (blank a y) = true) :
    ∃ w, y = 0x26 :: 0x27 :: w ∧ closingLength? false w = none ∧
      blank a y = 0x26 :: 0x27 :: blank false w := by
  obtain ⟨v, rfl⟩ := startsUnicodeQuote_eq_true ((blank_follows a y).unicode h)
  have hform : TokenForm a 0x26 ([] ++ 0x27 :: v) (.code 1 false) :=
    TokenForm.other (by decide) (by decide) (by decide) rfl rfl rfl
      (fun hc => absurd hc (by decide)) (fun hc => absurd hc (by decide))
  have hblank : blank a (0x26 :: 0x27 :: v) = 0x26 :: blank false (0x27 :: v) :=
    blank_token hform rfl
  have hq : startsQuote (blank false (0x27 :: v)) = true := by
    rw [hblank] at h
    simpa [startsUnicodeQuote] using h
  obtain ⟨w, hw, hc, hb⟩ := blank_startsQuote hq
  obtain ⟨-, rfl⟩ := List.cons.inj hw
  exact ⟨v, rfl, hc, by rw [hblank, hb]⟩

theorem literalLength?_blank_mark {a : Bool} {c : UInt8} {y : Bytes}
    (hm : isStringMark [c] (blank a y) = true) (hnone : literalLength? (c :: y) = none) :
    literalLength? (c :: blank a y) = none := by
  simp only [isStringMark_singleton, Bool.or_eq_true, Bool.and_eq_true] at hm
  rcases hm with ⟨hc | hc, hq⟩ | ⟨hc, hq⟩
  · obtain ⟨w, rfl, hw, hb⟩ := blank_startsQuote hq
    rw [literalLength?_escape hc, Option.map_eq_none_iff] at hnone
    rw [hb, literalLength?_escape hc, (closingLength?_blank false w hw true).1 hnone]
    rfl
  · obtain ⟨w, rfl, hw, hb⟩ := blank_startsQuote hq
    rw [hb, literalLength?_string hc, (closingLength?_blank false w hw false).1 hw]
    rfl
  · obtain ⟨w, rfl, hw, hb⟩ := blank_startsUnicodeQuote hq
    rw [hb, literalLength?_unicode hc, (closingLength?_blank false w hw false).1 hw]
    rfl

theorem literalLength?_dollar (rest : Bytes) : literalLength? (0x24 :: rest) =
    if startsDigit rest then some (1 + digitsLength rest) else dollarQuotedLength? rest := by
  simp [literalLength?]

theorem isStringMark_head {c d : UInt8} {rest : Bytes}
    (h : isStringMark [c] (d :: rest) = true) : d = 0x27 ∨ d = 0x26 := by
  simp only [isStringMark_singleton, startsQuote, startsUnicodeQuote, Bool.or_eq_true,
    Bool.and_eq_true, beq_iff_eq] at h
  exact h.imp And.right fun h => h.2.1

/-- A token of code is one of the same length before the blanked rest. -/
theorem TokenForm.before_blank {a : Bool} (a' : Bool) {c : UInt8} {x y : Bytes} {t : Token}
    (h : TokenForm a c (x ++ y) t) (ht : t.length = x.length + 1) (hl : t.isLiteral = false) :
    ∃ t', TokenForm a c (x ++ blank a' y) t' ∧ t'.length = x.length + 1 ∧
      t'.isLiteral = false := by
  by_cases hy : y = []
  · subst hy
    rw [blank_nil]
    exact ⟨t, h, ht, hl⟩
  by_cases hclosed : opensLiteral (c :: (x ++ y)) = true → literalLength? (c :: (x ++ y)) ≠ none
  · exact ⟨t, h.follows (blank_follows a' y) hy hclosed ht, ht, hl⟩
  rw [Classical.not_imp, not_not] at hclosed
  obtain ⟨ho, hnone⟩ := hclosed
  simp only [opensLiteral, Bool.or_eq_true, beq_iff_eq] at ho
  rcases ho with hc | hm
  · obtain rfl := h.unique (.stray hc hnone)
    obtain rfl : x = [] := by simpa [Token.code] using ht
    refine ⟨_, .stray hc ?_, rfl, rfl⟩
    rw [List.nil_append] at hnone ⊢
    rcases hc with rfl | rfl
    · simp only [literalLength?, if_true, Option.map_eq_none_iff] at hnone ⊢
      exact (closingLength?_blank a' y hnone false).1 hnone
    · rw [literalLength?_dollar] at hnone ⊢
      split at hnone
      · cases hnone
      · rename_i hd
        rw [if_neg (mt (blanked_blank a' y).digit hd)]
        exact (blanked_blank a' y).dollar hnone
  · have hw := isStringMark_wordStart hm
    obtain rfl := h.unique (.word hw fun _ => hnone)
    have hx : wordLength (c :: x ++ y) = (c :: x).length := ht
    obtain rfl : x = [] := by
      cases x with
      | nil => rfl
      | cons d x =>
          have hd : isWordByte d = true :=
            isWordByte_of_mem (b := c :: d :: x ++ y) (by rw [hx, List.take_left]; simp)
          rcases isStringMark_head hm with rfl | rfl <;> cases hd
    exact ⟨_, .word hw fun hm' => literalLength?_blank_mark hm' hnone,
      wordLength_follows (x := [c]) (blank_follows a' y) hx, rfl⟩

theorem TokenForm.not_number {a : Bool} {c : UInt8} {rest : Bytes} {t : Token}
    (h : TokenForm a c rest t) (hl : t.isLiteral = false) : startsNumber (c :: rest) = false := by
  rw [Bool.eq_false_iff]
  intro hn
  rw [h.unique (.number hn)] at hl
  cases hl

theorem startsNumber_blank (a : Bool) (b : Bytes) : startsNumber (blank a b) = false := by
  induction a, b using token_induction with
  | nil a =>
      rw [blank_nil]
      rfl
  | token a c x y t h ht ih =>
      rw [blank_token h ht, Token.shown]
      split
      · rfl
      · rename_i hl
        have hn := h.not_number (by simpa using hl)
        rw [Bool.eq_false_iff] at hn ⊢
        exact mt ((blank_follows t.afterOperand y).number_append (c :: x)) hn

/-- A dash that was read as code stands before no number. -/
theorem TokenForm.dash {a : Bool} (a' : Bool) {x y : Bytes} {t : Token}
    (h : TokenForm a 0x2D (x ++ y) t) (ht : t.length = x.length + 1) (hl : t.isLiteral = false) :
    startsNumber (x ++ blank a' y) = false := by
  cases x with
  | nil => exact startsNumber_blank a' y
  | cons d x =>
      have hd : (d :: x ++ y).head? = some 0x2D := by
        generalize hr : d :: x ++ y = rest at h
        cases h with
        | lineComment h => exact h
        | negative | opened | number => cases hl
        | stray | space | other =>
            simp only [Token.code, List.length_cons] at ht
            omega
        | word hw => cases hw
      obtain rfl := Option.some.inj hd
      rfl

/-- The scan of the blanked bytes finds nothing, in either context. -/
theorem scanFrom_blank_nil (a : Bool) (b : Bytes) :
    ∀ a' position, scanFrom a' position (blank a b) = [] := by
  induction a, b using token_induction with
  | nil a =>
      intro a' position
      rw [blank_nil, scanFrom]
  | token a c x y t h ht ih =>
      intro a' position
      rw [blank_token h ht, Token.shown]
      cases hl : t.isLiteral with
      | true =>
          rw [if_pos rfl, List.singleton_append]
          have hform : TokenForm a' placeholder ([] ++ blank t.afterOperand y) (.code 1 false) :=
            TokenForm.other (by decide) (by decide) (by decide) rfl rfl rfl
              (fun hc => absurd hc (by decide)) (fun hc => absurd hc (by decide))
          rw [← List.nil_append (blank t.afterOperand y), scanFrom_token position hform rfl, ih]
          rfl
      | false =>
          rw [if_neg Bool.false_ne_true, List.cons_append]
          obtain ⟨t₁, h₁, hlen₁, hl₁⟩ := h.before_blank t.afterOperand ht hl
          obtain ⟨t₂, h₂, hlen₂, hl₂⟩ := h₁.context a' (by
            rintro rfl
            exact h.dash t.afterOperand ht hl)
          rw [scanFrom_token position h₂ (hlen₂.trans hlen₁), ih, hl₂, hl₁]
          rfl

theorem normalize_nil (t : String) : normalize t [] = t := by
  simp [normalize, normalizeBytes, replacedStretches, dropRepeats, chooseFrom, substituteFrom]

/-- The normal form of any text holds no literals and is its own normal form, so that both have one
fingerprint. -/
theorem scan_normalize (t : String) :
    scan (normalize t (scan t)) = [] ∧
      normalize (normalize t (scan t)) (scan (normalize t (scan t))) = normalize t (scan t) ∧
      (Source.new (normalize t (scan t)) (scan (normalize t (scan t)))).fingerprint? =
        (Source.new t (scan t)).fingerprint? ∧
      (Source.new t (scan t)).fingerprint? =
        some (Fingerprint.ofNormalized (normalize t (scan t))) := by
  have hscan : scan (normalize t (scan t)) = [] := by
    rw [scan, utf8_normalize]
    exact scanFrom_blank_nil false (utf8 t) false 0
  have hself : normalize (normalize t (scan t)) (scan (normalize t (scan t))) =
      normalize t (scan t) := by rw [hscan, normalize_nil]
  refine ⟨hscan, hself, ?_, fingerprint_new t (scan t)⟩
  rw [fingerprint_new, fingerprint_new, hself]

end PlanFeedback.Query
