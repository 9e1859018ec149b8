import PlanFeedback.Proofs.LiteralExtent

/-!
The tokens of the scanner: the form of each, and how little each depends on what follows it.
-/
namespace PlanFeedback.Query

open Text

/-- A quote, a dollar sign, or the letters and the quote that open a string constant come next. -/
def opensLiteral : Bytes → Bool
  | [] => false
  | c :: rest => c == 0x27 || c == 0x24 || isStringMark [c] rest

/-- The ways in which a byte and what follows it can make a token. -/
inductive TokenForm (a : Bool) : UInt8 → Bytes → Token → Prop where
  | lineComment {rest : Bytes} : rest.head? = some 0x2D →
      TokenForm a 0x2D rest (.code (1 + lengthThrough [0x0A] rest) a)
  | blockComment {rest : Bytes} :
      TokenForm a 0x2F (0x2A :: rest) (.code (2 + lengthThrough [0x2A, 0x2F] rest) a)
  | negative {rest : Bytes} : a = false → startsNumber rest = true →
      TokenForm a 0x2D rest (.literal (1 + numberLength rest))
  | name {rest : Bytes} : TokenForm a 0x22 rest (.code (1 + identifierLength rest) true)
  | opened {c : UInt8} {rest : Bytes} {n : Nat} : opensLiteral (c :: rest) = true →
      literalLength? (c :: rest) = some n → TokenForm a c rest (.literal n)
  | stray {c : UInt8} {rest : Bytes} : c = 0x27 ∨ c = 0x24 → literalLength? (c :: rest) = none →
      TokenForm a c rest (.code 1 false)
  | number {c : UInt8} {rest : Bytes} : startsNumber (c :: rest) = true →
      TokenForm a c rest (.literal (numberLength (c :: rest)))
  | word {c : UInt8} {rest : Bytes} : isWordStart c = true →
      (isStringMark [c] rest = true → literalLength? (c :: rest) = none) →
      TokenForm a c rest (.code (wordLength (c :: rest))
        (!isOperatorKeyword ((c :: rest).take (wordLength (c :: rest)))))
  | space {c : UInt8} {rest : Bytes} : isSpace c = true → TokenForm a c rest (.code 1 a)
  | other {c : UInt8} {rest : Bytes} : c ≠ 0x22 → c ≠ 0x27 → c ≠ 0x24 → isWordStart c = false →
      isSpace c = false → startsNumber (c :: rest) = false →
      (c = 0x2D → rest.head? ≠ some 0x2D ∧ (a = true ∨ startsNumber rest = false)) →
      (c = 0x2F → rest.head? ≠ some 0x2A) →
      TokenForm a c rest (.code 1 (c == 0x29 || c == 0x5D))

theorem isStringMark_take (c : UInt8) (rest : Bytes) (h : isWordByte c = true) :
    isStringMark ((c :: rest).take (wordLength (c :: rest)))
      ((c :: rest).drop (wordLength (c :: rest))) = isStringMark [c] rest := by
  rw [wordLength_cons, if_pos h, List.take_succ_cons, List.drop_succ_cons]
  cases rest with
  | nil => rfl
  | cons d rest =>
      by_cases hd : isWordByte d
      · rw [wordLength_cons, if_pos hd, List.take_succ_cons, isStringMark_singleton]
        have hq : d ≠ 0x27 := by rintro rfl; cases hd
        have hu : d ≠ 0x26 := by rintro rfl; cases hd
        simp [isStringMark, startsQuote, startsUnicodeQuote, hq, hu]
      · rw [wordLength_cons, if_neg hd, List.take_zero, List.drop_zero]

theorem wordToken_cons (c : UInt8) (rest : Bytes) (h : isWordByte c = true) :
    wordToken (c :: rest) =
      if isStringMark [c] rest then
        match literalLength? (c :: rest) with
        | some n => .literal n
        | none => .code (wordLength (c :: rest))
            (!isOperatorKeyword ((c :: rest).take (wordLength (c :: rest))))
      else .code (wordLength (c :: rest))
        (!isOperatorKeyword ((c :: rest).take (wordLength (c :: rest)))) := by
  have hmark := isStringMark_take c rest h
  cases hm : isStringMark [c] rest with
  | false => simp [wordToken, hmark, hm]
  | true => cases hl : literalLength? (c :: rest) <;> simp [wordToken, hmark, hm, hl]

theorem tokenForm_nextToken (a : Bool) (c : UInt8) (rest : Bytes) :
    TokenForm a c rest (nextToken a c rest) := by
  rw [nextToken]
  split
  · rename_i h
    obtain ⟨rfl, h⟩ := h
    exact .lineComment h
  rename_i hdash
  split
  · rename_i h
    obtain ⟨rfl, h⟩ := h
    cases rest with
    | nil => cases h
    | cons b rest =>
        obtain rfl := Option.some.inj h
        exact .blockComment
  rename_i hslash
  split
  · rename_i h
    obtain ⟨rfl, ha, hn⟩ := h
    exact .negative (by simpa using ha) hn
  rename_i hminus
  split
  · rename_i h
    subst h
    exact .name
  rename_i hname
  split
  · rename_i h
    split
    · rename_i n hn
      refine .opened ?_ hn
      rcases h with rfl | rfl <;> rfl
    · rename_i hn
      exact .stray h hn
  rename_i hmark
  split
  · rename_i h
    exact .number h
  rename_i hnumber
  split
  · rename_i h
    rw [wordToken_cons c rest (isWordStart_isWordByte h)]
    split
    · rename_i hm
      split
      · rename_i n hn
        exact .opened (by simp [opensLiteral, hm]) hn
      · rename_i hn
        exact .word h fun _ => hn
    · rename_i hm
      exact .word h fun hm' => absurd hm' hm
  rename_i hword
  split
  · rename_i h
    exact .space h
  · rename_i hspace
    rw [not_or] at hmark
    refine .other hname hmark.1 hmark.2 (by simpa using hword) (by simpa using hspace)
      (by simpa using hnumber) ?_ fun hc hs => hslash ⟨hc, hs⟩
    intro hc
    refine ⟨fun hd => hdash ⟨hc, hd⟩, ?_⟩
    by_contra h
    simp only [not_or, Bool.not_eq_true, Bool.not_eq_false] at h
    exact hminus ⟨hc, by simpa using h.1, h.2⟩

theorem isStringMark_wordStart {c : UInt8} {rest : Bytes} (h : isStringMark [c] rest = true) :
    isWordStart c = true := by
  simp only [isStringMark_singleton, Bool.or_eq_true, Bool.and_eq_true] at h
  rcases h with ⟨hc | hc, -⟩ | ⟨hc, -⟩
  · exact isEscapeLetter_wordStart hc
  · exact (isStringLetter_wordStart hc).1
  · exact (isUnicodeLetter_wordStart hc).1

theorem isWordStart_not_digit {c : UInt8} (h : isWordStart c = true) : isDigit c = false := by
  unfold isWordStart isLetter isLower isUpper at h
  unfold isDigit
  grind

theorem head_ne_of_startsNumber {rest : Bytes} {b : UInt8} (h : startsNumber rest = true)
    (hd : isDigit b = false) (hp : b ≠ 0x2E) : rest.head? ≠ some b := by
  cases rest with
  | nil => cases h
  | cons c rest =>
      intro hc
      obtain rfl := Option.some.inj hc
      simp [startsNumber, hd, hp] at h

theorem nextToken_of_wordStart (a : Bool) {c : UInt8} (rest : Bytes) (h : isWordStart c = true) :
    nextToken a c rest = wordToken (c :: rest) := by
  have hc : c ≠ 0x2D ∧ c ≠ 0x2F ∧ c ≠ 0x22 ∧ c ≠ 0x27 ∧ c ≠ 0x24 ∧ c ≠ 0x2E := by
    refine ⟨?_, ?_, ?_, ?_, ?_, ?_⟩ <;> rintro rfl <;> cases h
  have hn : startsNumber (c :: rest) = false := by
    simp [startsNumber, isWordStart_not_digit h, hc]
  simp [nextToken, hc, hn, h]

theorem TokenForm.nextToken {a : Bool} {c : UInt8} {rest : Bytes} {t : Token}
    (h : TokenForm a c rest t) : nextToken a c rest = t := by
  cases h with
  | lineComment h => simp [Query.nextToken, h]
  | blockComment => simp [Query.nextToken]
  | negative ha h =>
      have hd : rest.head? ≠ some 0x2D := head_ne_of_startsNumber h rfl (by decide)
      simp [Query.nextToken, hd, ha, h]
  | name => simp [Query.nextToken]
  | opened ho h =>
      simp only [opensLiteral, Bool.or_eq_true, beq_iff_eq] at ho
      rcases ho with (rfl | rfl) | hm
      · simp [Query.nextToken, h]
      · simp [Query.nextToken, h]
      · have hw := isStringMark_wordStart hm
        rw [nextToken_of_wordStart a rest hw, wordToken_cons c rest (isWordStart_isWordByte hw),
          if_pos hm, h]
  | stray hc h => rcases hc with rfl | rfl <;> simp [Query.nextToken, h]
  | number h =>
      have hc : c ≠ 0x2D ∧ c ≠ 0x2F ∧ c ≠ 0x22 ∧ c ≠ 0x27 ∧ c ≠ 0x24 := by
        refine ⟨?_, ?_, ?_, ?_, ?_⟩ <;> rintro rfl <;> cases h
      simp [Query.nextToken, hc, h]
  | word hw h =>
      rw [nextToken_of_wordStart a rest hw, wordToken_cons c rest (isWordStart_isWordByte hw)]
      split
      · rename_i hm
        rw [h hm]
      · rfl
  | space h =>
      rcases (isSpace_iff c).1 h with rfl | rfl | rfl | rfl | rfl <;>
        simp [Query.nextToken, startsNumber, isDigit, isWordStart, isLetter, isLower, isUpper,
          isSpace]
  | other hn hq hd hw hs hnum hdash hslash =>
      have h1 : ¬ (c = 0x2D ∧ rest.head? = some 0x2D) := fun h => (hdash h.1).1 h.2
      have h2 : ¬ (c = 0x2F ∧ rest.head? = some 0x2A) := fun h => hslash h.1 h.2
      have h3 : ¬ (c = 0x2D ∧ !a ∧ startsNumber rest) := fun h => by
        rcases (hdash h.1).2 with ha | hr
        · simp [ha] at h
        · simp [hr] at h
      simp only [Query.nextToken, h1, h2, h3, hn, hq, hd, hw, hs, hnum, or_self,
        Bool.false_eq_true, if_false]

theorem lengthThrough_le (mark b : Bytes) : lengthThrough mark b ≤ b.length := by
  rw [lengthThrough]
  split
  · rename_i n h
    exact offsetOf?_le h
  · exact Nat.le_refl _

theorem identifierLength_le (b : Bytes) : identifierLength b ≤ b.length := by
  fun_induction identifierLength b with
  | case1 => exact Nat.le_refl 0
  | case2 => exact Nat.le_refl 1
  | case3 rest ih => simp only [List.length_cons]; omega
  | case4 => simp only [List.length_cons]; omega
  | case5 c rest hc ih => simp only [List.length_cons]; omega

theorem TokenForm.pos {a : Bool} {c : UInt8} {rest : Bytes} {t : Token} (h : TokenForm a c rest t) :
    0 < t.length := by
  cases h with
  | lineComment | blockComment | negative | name => simp only [Token.code, Token.literal]; omega
  | opened _ h => exact (literalLength?_eq_some_iff.1 h).pos
  | stray | space | other => exact Nat.zero_lt_one
  | number h => exact numberLength_pos h
  | word hw _ =>
      simp only [Token.code, wordLength_cons, isWordStart_isWordByte hw, if_true]
      omega

theorem TokenForm.le {a : Bool} {c : UInt8} {rest : Bytes} {t : Token} (h : TokenForm a c rest t) :
    t.length ≤ rest.length + 1 := by
  cases h with
  | lineComment _ =>
      have := lengthThrough_le [0x0A] rest
      simp only [Token.code]
      omega
  | @blockComment rest =>
      have := lengthThrough_le [0x2A, 0x2F] rest
      simp only [Token.code, List.length_cons]
      omega
  | negative _ _ =>
      have := numberLength_le rest
      simp only [Token.literal]
      omega
  | name =>
      have := identifierLength_le rest
      simp only [Token.code]
      omega
  | opened _ h => exact (literalLength?_eq_some_iff.1 h).le
  | stray | space | other => exact Nat.succ_le_succ (Nat.zero_le _)
  | number _ => exact numberLength_le (c :: rest)
  | word _ _ => exact wordLength_le (c :: rest)

theorem lengthThrough_split {mark x y : Bytes} (hy : y ≠ [])
    (h : lengthThrough mark (x ++ y) = x.length) :
    ∃ z, x = z ++ mark ∧ offsetOf? mark (x ++ y) = some z.length := by
  rw [lengthThrough] at h
  split at h
  · rename_i n hn
    obtain ⟨z, w, hz, rfl⟩ := split_of_offsetOf hn
    have hlen : x.length = (z ++ mark).length := by rw [List.length_append, h]
    obtain ⟨rfl, -⟩ := List.append_inj hz hlen
    exact ⟨z, rfl, hn⟩
  · rw [List.length_append] at h
    exact absurd (List.length_eq_zero_iff.1 (by omega)) hy

theorem lengthThrough_exchange {mark x y : Bytes} (y' : Bytes) (hy : y ≠ [])
    (h : lengthThrough mark (x ++ y) = x.length) : lengthThrough mark (x ++ y') = x.length := by
  obtain ⟨z, rfl, hz⟩ := lengthThrough_split hy h
  rw [lengthThrough, offsetOf?_exchange hz]
  simp only [List.length_append]

theorem identifierLength_plain {c : UInt8} (b : Bytes) (hc : c ≠ 0x22) :
    identifierLength (c :: b) = identifierLength b + 1 := by
  rw [identifierLength.eq_def]
  simp only [hc, if_false]

theorem identifierLength_doubled (b : Bytes) :
    identifierLength (0x22 :: 0x22 :: b) = identifierLength b + 2 := by
  simp [identifierLength]

theorem identifierLength_last {b : Bytes} (hb : b.head? ≠ some 0x22) :
    identifierLength (0x22 :: b) = 1 := by
  cases b with
  | nil => simp [identifierLength]
  | cons q b =>
      have hq : q ≠ 0x22 := fun h => hb (h ▸ rfl)
      simp [identifierLength, hq]

theorem identifierLength_pos {b : Bytes} (h : b ≠ []) : 0 < identifierLength b := by
  cases b with
  | nil => exact absurd rfl h
  | cons c b =>
      by_cases hc : c = 0x22
      · subst hc
        by_cases hb : b.head? = some 0x22
        · obtain ⟨w, rfl⟩ : ∃ w, b = 0x22 :: w := by
            cases b with
            | nil => cases hb
            | cons q w => exact ⟨w, by rw [Option.some.inj hb]⟩
          rw [identifierLength_doubled]
          omega
        · rw [identifierLength_last hb]
          exact Nat.zero_lt_one
      · rw [identifierLength_plain b hc]
        omega

theorem identifierLength_follows {y y' : Bytes} (hf : Follows y y') (hy : y ≠ []) : (x : Bytes) →
    identifierLength (x ++ y) = x.length → identifierLength (x ++ y') = x.length
  | [], h => absurd h (Nat.ne_of_gt (identifierLength_pos hy))
  | [c], h => by
      have hpos := identifierLength_pos hy
      by_cases hc : c = 0x22
      · subst hc
        have hb : y.head? ≠ some 0x22 := fun hb => by
          obtain ⟨w, rfl⟩ : ∃ w, y = 0x22 :: w := by
            cases y with
            | nil => cases hb
            | cons q w => exact ⟨w, by rw [Option.some.inj hb]⟩
          rw [List.singleton_append, identifierLength_doubled] at h
          simp at h
        exact identifierLength_last (mt (hf.head_eq (by decide) rfl) hb)
      · rw [List.singleton_append, identifierLength_plain y hc, List.length_singleton] at h
        omega
  | c :: d :: x, h => by
      by_cases hc : c = 0x22
      · subst hc
        by_cases hd : d = 0x22
        · subst hd
          simp only [List.cons_append, identifierLength_doubled, List.length_cons] at h ⊢
          rw [identifierLength_follows hf hy x (by omega)]
        · have hb : ∀ z, (d :: z : Bytes).head? ≠ some 0x22 := fun z h => hd (Option.some.inj h)
          rw [List.cons_append, List.cons_append, identifierLength_last (hb _)] at h
          simp at h
      · simp only [List.cons_append, identifierLength_plain _ hc, List.length_cons] at h ⊢
        rw [← List.cons_append, identifierLength_follows hf hy (d :: x) (by
          simp only [List.cons_append, List.length_cons]; omega)]
        rfl

theorem lengthThrough_pos {mark b : Bytes} (hm : mark ≠ []) (hb : b ≠ []) :
    0 < lengthThrough mark b := by
  have h1 := List.length_pos_iff.2 hm
  have h2 := List.length_pos_iff.2 hb
  rw [lengthThrough]
  split <;> omega

theorem isStringMark_exchange {c : UInt8} {x y : Bytes} (y' : Bytes) (hx : 2 ≤ x.length)
    (h : isStringMark [c] (x ++ y) = true) : isStringMark [c] (x ++ y') = true := by
  rcases x with _ | ⟨d, _ | ⟨e, x⟩⟩
  · cases hx
  · simp at hx
  · exact h

theorem LiteralForm.three_le {c : UInt8} {rest : Bytes} {n : Nat} (h : LiteralForm c rest n)
    (hm : isStringMark [c] rest = true) : 3 ≤ n := by
  have hw := isStringMark_wordStart hm
  cases h with
  | quoted | marker | dollar => cases hw
  | signed hc => rcases hc with rfl | rfl <;> cases hw
  | number h =>
      have hp : c ≠ 0x2E := by rintro rfl; cases hw
      simp [startsNumber, isWordStart_not_digit hw, hp] at h
  | escape _ h | string _ h | unicode _ h =>
      have := closingLength?_pos h
      omega
  | word _ hm' =>
      rw [hm] at hm'
      cases hm'

/-- A line comment that ends before `y` ends there before anything else. -/
theorem TokenForm.lineComment_exchange {a : Bool} {x y : Bytes} (y' : Bytes) (hy : y ≠ [])
    (hdash : (x ++ y).head? = some 0x2D) (hx : lengthThrough [0x0A] (x ++ y) = x.length) :
    TokenForm a 0x2D (x ++ y') (.code (1 + lengthThrough [0x0A] (x ++ y)) a) := by
  rw [hx, ← lengthThrough_exchange y' hy hx]
  refine .lineComment ?_
  cases x with
  | nil => exact absurd hx (Nat.ne_of_gt (lengthThrough_pos (by simp) hy))
  | cons d x => exact hdash

/-- A block comment that ends before `y` ends there before anything else. -/
theorem TokenForm.blockComment_exchange {a : Bool} {x y rest : Bytes} (y' : Bytes) (hy : y ≠ [])
    (hr : x ++ y = 0x2A :: rest) (hx : 2 + lengthThrough [0x2A, 0x2F] rest = x.length + 1) :
    TokenForm a 0x2F (x ++ y') (.code (2 + lengthThrough [0x2A, 0x2F] rest) a) := by
  cases x with
  | nil =>
      rw [List.length_nil] at hx
      omega
  | cons d x =>
      simp only [List.cons_append, List.cons.injEq] at hr
      obtain ⟨rfl, rfl⟩ := hr
      have hlength : lengthThrough [0x2A, 0x2F] (x ++ y) = x.length := by
        rw [List.length_cons] at hx
        omega
      rw [hlength, ← lengthThrough_exchange y' hy hlength]
      exact .blockComment

/-- A token that does not reach to the end is the same token before whatever does not go on with it.
A literal that failed has to fail there again. -/
theorem TokenForm.exchange {a : Bool} {c : UInt8} {x y y' : Bytes} {t : Token}
    (hf : Follows y y') (hy : y ≠ [])
    (hfails : opensLiteral (c :: (x ++ y)) = true → literalLength? (c :: (x ++ y)) = none →
      literalLength? (c :: (x ++ y')) = none)
    (h : TokenForm a c (x ++ y) t) (ht : t.length = x.length + 1) : TokenForm a c (x ++ y') t := by
  generalize hr : x ++ y = rest at h hfails
  cases h with
  | lineComment h =>
      subst hr
      exact .lineComment_exchange y' hy h (by simp only [Token.code] at ht; omega)
  | blockComment => exact .blockComment_exchange y' hy hr ht
  | negative ha h =>
      subst hr
      have hx : numberLength (x ++ y) = x.length := by
        simp only [Token.literal] at ht
        omega
      rw [hx, ← numberLength_follows hf hx]
      exact .negative ha (startsNumber_follows h hx)
  | name =>
      subst hr
      have hx : identifierLength (x ++ y) = x.length := by
        simp only [Token.code] at ht
        omega
      rw [hx, ← identifierLength_follows hf hy x hx]
      exact .name
  | opened ho h =>
      subst hr ht
      have hform := literalLength?_eq_some_iff.1 h
      refine .opened ?_ (literalLength?_eq_some_iff.2 (hform.follows hf))
      simp only [opensLiteral, Bool.or_eq_true] at ho ⊢
      refine ho.imp_right fun hm => isStringMark_exchange y' ?_ hm
      exact Nat.le_of_succ_le_succ (hform.three_le hm)
  | stray hc h =>
      refine .stray hc (hfails ?_ h)
      rcases hc with rfl | rfl <;> rfl
  | number h =>
      subst hr
      have hx : numberLength (c :: x ++ y) = (c :: x).length := ht
      rw [← List.cons_append, hx, ← numberLength_follows hf hx]
      exact .number (startsNumber_follows h hx)
  | word hw h =>
      subst hr
      have hx : wordLength (c :: x ++ y) = (c :: x).length := ht
      have hx' := wordLength_follows hf hx
      have htake : ∀ z, (c :: x ++ z).take (c :: x).length = c :: x := fun z => List.take_left
      have hmark : isStringMark [c] (x ++ y') = true → literalLength? (c :: (x ++ y')) = none := by
        intro hm
        have hm := hf.mark_append c x hm
        exact hfails (by simp [opensLiteral, hm]) (h hm)
      have hform := TokenForm.word (a := a) hw hmark
      rw [← List.cons_append, hx', htake y'] at hform
      rwa [← List.cons_append, hx, htake y]
  | space h =>
      obtain rfl : x = [] := by simpa [Token.code] using ht
      exact .space h
  | other hn hq hd hw hs hnum hdash hslash =>
      obtain rfl : x = [] := by simpa [Token.code] using ht
      obtain rfl := hr
      rw [Bool.eq_false_iff] at hnum
      refine .other hn hq hd hw hs (Bool.eq_false_iff.2 (mt (hf.number_append [c]) hnum)) ?_ ?_
      · intro hc
        obtain ⟨h1, h2⟩ := hdash hc
        refine ⟨mt (hf.head_eq (by decide) rfl) h1, h2.imp_right fun h => ?_⟩
        rw [Bool.eq_false_iff] at h ⊢
        exact mt hf.number h
      · intro hc
        exact mt (hf.head_eq (by decide) rfl) (hslash hc)

/-- A token that does not reach to the end, and that is no failed literal, is the same token before
whatever does not go on with it. -/
theorem TokenForm.follows {a : Bool} {c : UInt8} {x y y' : Bytes} {t : Token}
    (hf : Follows y y') (hy : y ≠ [])
    (hclosed : opensLiteral (c :: (x ++ y)) = true → literalLength? (c :: (x ++ y)) ≠ none)
    (h : TokenForm a c (x ++ y) t) (ht : t.length = x.length + 1) : TokenForm a c (x ++ y') t :=
  h.exchange hf hy (fun ho hnone => absurd hnone (hclosed ho)) ht

/-- Only a dash before a number is read differently after an operand. -/
theorem TokenForm.context {a : Bool} (a' : Bool) {c : UInt8} {rest : Bytes} {t : Token}
    (h : TokenForm a c rest t) (hn : c = 0x2D → startsNumber rest = false) :
    ∃ t', TokenForm a' c rest t' ∧ t'.length = t.length ∧ t'.isLiteral = t.isLiteral := by
  cases h with
  | lineComment h => exact ⟨_, .lineComment h, rfl, rfl⟩
  | blockComment => exact ⟨_, .blockComment, rfl, rfl⟩
  | negative _ h =>
      rw [hn rfl] at h
      cases h
  | name => exact ⟨_, .name, rfl, rfl⟩
  | opened ho h => exact ⟨_, .opened ho h, rfl, rfl⟩
  | stray hc h => exact ⟨_, .stray hc h, rfl, rfl⟩
  | number h => exact ⟨_, .number h, rfl, rfl⟩
  | word hw h => exact ⟨_, .word hw h, rfl, rfl⟩
  | space h => exact ⟨_, .space h, rfl, rfl⟩
  | other h1 h2 h3 h4 h5 h6 h7 h8 =>
      exact ⟨_, .other h1 h2 h3 h4 h5 h6 (fun hc => ⟨(h7 hc).1, Or.inr (hn hc)⟩) h8, rfl, rfl⟩

end PlanFeedback.Query
