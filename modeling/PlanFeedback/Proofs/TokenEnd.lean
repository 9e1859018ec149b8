import PlanFeedback.Proofs.TokenExtent

/-!
How a token ends. What closes a quote does not depend on the tokens between, because their last
bytes are known.
-/
namespace PlanFeedback.Query

open Text

/-- A byte of a number: a digit, a point, a sign or the letter of an exponent. -/
def isNumberByte (b : UInt8) : Bool :=
  isDigit b || b == 0x2E || b == 0x2B || b == 0x2D || b == 0x65 || b == 0x45

theorem isNumberByte_lt {b : UInt8} (h : isNumberByte b = true) : b < 0x80 := by
  unfold isNumberByte isDigit at h
  grind

theorem isNumberByte_of_digit {b : UInt8} (h : isDigit b = true) : isNumberByte b = true := by
  simp only [isNumberByte, h, Bool.true_or]

theorem isDigit_of_mem {b : Bytes} {d : UInt8} (h : d ∈ b.take (digitsLength b)) :
    isDigit d = true := by
  have hb := List.prefix_iff_eq_take.1 (List.takeWhile_prefix isDigit (l := b))
  rw [digitsLength, ← hb] at h
  exact List.mem_takeWhile_imp h

theorem isNumberByte_of_fraction {b : Bytes} {d : UInt8} (h : d ∈ b.take (fractionLength b)) :
    isNumberByte d = true := by
  cases b with
  | nil => simp at h
  | cons c b =>
      rw [fractionLength] at h
      split at h
      · rename_i hc
        rw [Nat.add_comm, List.take_succ_cons, List.mem_cons] at h
        rcases h with rfl | h
        · rw [hc]
          rfl
        · exact isNumberByte_of_digit (isDigit_of_mem h)
      · simp at h

theorem isNumberByte_of_sign {b : Bytes} {d : UInt8} (h : d ∈ b.take (signLength b)) :
    isNumberByte d = true := by
  cases b with
  | nil => simp at h
  | cons c b =>
      rw [signLength] at h
      split at h
      · rename_i hc
        rw [List.take_succ_cons, List.take_zero, List.mem_singleton] at h
        rcases hc with rfl | rfl <;> rw [h] <;> rfl
      · simp at h

theorem isNumberByte_of_exponent {b : Bytes} {d : UInt8} (h : d ∈ b.take (exponentLength b)) :
    isNumberByte d = true := by
  cases b with
  | nil => simp at h
  | cons c b =>
      rw [exponentLength] at h
      split at h
      · rename_i hc
        rw [Nat.add_assoc, Nat.add_comm, List.take_succ_cons, List.take_add, List.mem_cons,
          List.mem_append] at h
        rcases h with rfl | h | h
        · rcases hc.1 with rfl | rfl <;> rfl
        · exact isNumberByte_of_sign h
        · exact isNumberByte_of_digit (isDigit_of_mem h)
      · simp at h

theorem isNumberByte_of_mem {b : Bytes} {d : UInt8} (h : d ∈ b.take (numberLength b)) :
    isNumberByte d = true := by
  simp only [numberLength, List.take_add, List.mem_append] at h
  rcases h with (h | h) | h
  · exact isNumberByte_of_digit (isDigit_of_mem h)
  · exact isNumberByte_of_fraction h
  · exact isNumberByte_of_exponent h

theorem isWordByte_of_mem {b : Bytes} {d : UInt8} (h : d ∈ b.take (wordLength b)) :
    isWordByte d = true := by
  have hb := List.prefix_iff_eq_take.1 (List.takeWhile_prefix isWordByte (l := b))
  rw [wordLength, ← hb] at h
  exact List.mem_takeWhile_imp h

/-- Neither a quote nor a backslash: within quotes such a byte has no effect. -/
def IsPlain (b : UInt8) : Prop := b ≠ 0x27 ∧ b ≠ 0x5C

theorem isPlain_of_number {b : UInt8} (h : isNumberByte b = true) : IsPlain b := by
  constructor <;> rintro rfl <;> cases h

theorem not_inert_of_number {b : UInt8} (h : isNumberByte b = true) : isInert b = false := by
  rw [Bool.eq_false_iff]
  intro hb
  rcases (isInert_iff b).1 hb with
    rfl | rfl | rfl | rfl | rfl | rfl | rfl | rfl | rfl | rfl <;> cases h

theorem isPlain_of_word {b : UInt8} (h : isWordByte b = true) : IsPlain b := by
  constructor <;> rintro rfl <;> cases h

theorem exists_last (c : UInt8) (x : Bytes) : ∃ z d, c :: x = z ++ [d] :=
  ⟨_, _, (List.dropLast_concat_getLast (List.cons_ne_nil c x)).symm⟩

theorem identifierLength_split {y : Bytes} (hy : y ≠ []) : (x : Bytes) →
    identifierLength (x ++ y) = x.length → ∃ z, x = z ++ [0x22]
  | [], h => absurd h (Nat.ne_of_gt (identifierLength_pos hy))
  | [c], h => by
      have hpos := identifierLength_pos hy
      by_cases hc : c = 0x22
      · exact ⟨[], by rw [hc]; rfl⟩
      · rw [List.singleton_append, identifierLength_plain y hc, List.length_singleton] at h
        omega
  | c :: d :: x, h => by
      by_cases hc : c = 0x22
      · subst hc
        by_cases hd : d = 0x22
        · subst hd
          simp only [List.cons_append, identifierLength_doubled, List.length_cons] at h
          cases x with
          | nil => exact ⟨[0x22], rfl⟩
          | cons e x =>
              obtain ⟨z, hz⟩ := identifierLength_split hy (e :: x) (by
                simp only [List.cons_append, List.length_cons] at h ⊢; omega)
              exact ⟨0x22 :: 0x22 :: z, by rw [hz]; rfl⟩
        · have hb : (d :: (x ++ y) : Bytes).head? ≠ some 0x22 := fun h => hd (Option.some.inj h)
          rw [List.cons_append, List.cons_append, identifierLength_last hb] at h
          simp at h
      · rw [List.cons_append, identifierLength_plain _ hc, List.length_cons] at h
        obtain ⟨z, hz⟩ := identifierLength_split hy (d :: x) (by omega)
        exact ⟨c :: z, by rw [hz]; rfl⟩

/-- How a literal token ends before `y`: with an ASCII byte that is neither a quote nor inert, or as a
quoted string with at most a prefix of plain bytes. -/
inductive LiteralEnd (y : Bytes) : Bytes → Prop where
  | plain (z : Bytes) {d : UInt8} :
      d < 0x80 → IsPlain d → isInert d = false → LiteralEnd y (z ++ [d])
  | quoted {escapes : Bool} {z body : Bytes} : (∀ b ∈ z, IsPlain b) → QuotedBody escapes body →
      startsQuote y = false → LiteralEnd y (z ++ 0x27 :: (body ++ [0x27]))

theorem LiteralEnd.of_number {c : UInt8} {x : Bytes} (y : Bytes)
    (h : ∀ d ∈ c :: x, isNumberByte d = true) : LiteralEnd y (c :: x) := by
  obtain ⟨z, d, hz⟩ := exists_last c x
  have hd := h d (by simp [hz])
  rw [hz]
  exact .plain z (isNumberByte_lt hd) (isPlain_of_number hd) (not_inert_of_number hd)

theorem LiteralEnd.of_quoted {escapes : Bool} {x y z : Bytes} (hz : ∀ b ∈ z, IsPlain b)
    (h : closingLength? escapes (x ++ y) = some x.length) : LiteralEnd y (z ++ 0x27 :: x) := by
  obtain ⟨body, w, hb, hbody, hw, hx⟩ := closingLength?_eq_some_iff.1 h
  rw [← List.singleton_append, ← List.append_assoc] at hb
  obtain ⟨rfl, rfl⟩ := List.append_inj hb (by simpa using hx)
  exact .quoted hz hbody hw

theorem LiteralEnd.of_dollar {x y : Bytes} (h : dollarQuotedLength? (x ++ y) = some (x.length + 1)) :
    LiteralEnd y (0x24 :: x) := by
  obtain ⟨tag, body, w, hb, -, -, -, hn⟩ := dollarQuoted_split h
  have hb' : x ++ y = (tag ++ 0x24 :: (body ++ 0x24 :: tag)) ++ [0x24] ++ w := by
    rw [hb]
    simp only [List.append_assoc, List.cons_append, List.nil_append]
  obtain ⟨rfl, -⟩ := List.append_inj hb' (by
    simp only [List.length_append, List.length_cons, List.length_nil]
    omega)
  rw [← List.cons_append]
  exact .plain _ (by decide) (by constructor <;> decide) (by decide)

theorem forall_plain_singleton {c : UInt8} (h : isWordStart c = true) : ∀ b ∈ [c], IsPlain b := by
  intro b hb
  rw [List.mem_singleton.1 hb]
  exact isPlain_of_word (isWordStart_isWordByte h)

theorem LiteralForm.end {c : UInt8} {x y : Bytes} (ho : opensLiteral (c :: (x ++ y)) = true)
    (h : LiteralForm c (x ++ y) (x.length + 1)) : c < 0x80 ∧ LiteralEnd y (c :: x) := by
  generalize hr : x ++ y = rest at h ho
  generalize hn : x.length + 1 = n at h
  cases h with
  | quoted h =>
      subst hr
      obtain rfl := Nat.succ.inj hn
      exact ⟨by decide, LiteralEnd.of_quoted (z := []) (by simp) h⟩
  | marker h =>
      subst hr
      refine ⟨by decide, ?_⟩
      have hx : digitsLength (x ++ y) = x.length := by omega
      have hne : x ≠ [] := by
        rintro rfl
        rw [List.length_nil, digitsLength_eq_zero, h] at hx
        cases hx
      obtain ⟨z, d, hz⟩ : ∃ z d, x = z ++ [d] :=
        ⟨_, _, (List.dropLast_concat_getLast hne).symm⟩
      have hd : isNumberByte d = true := isNumberByte_of_digit (isDigit_of_mem (b := x ++ y) (by
        rw [hx, List.take_left, hz]
        simp))
      rw [hz, ← List.cons_append]
      exact .plain _ (isNumberByte_lt hd) (isPlain_of_number hd) (not_inert_of_number hd)
  | dollar _ h =>
      subst hr hn
      exact ⟨by decide, LiteralEnd.of_dollar h⟩
  | signed hc _ => rcases hc with rfl | rfl <;> cases ho
  | number h =>
      have hw : c ≠ 0x27 ∧ c ≠ 0x24 ∧ isWordStart c = false := by
        refine ⟨?_, ?_, ?_⟩
        · rintro rfl; cases h
        · rintro rfl; cases h
        · rw [Bool.eq_false_iff]
          intro hw
          have hp : c ≠ 0x2E := by rintro rfl; cases hw
          simp [startsNumber, isWordStart_not_digit hw, hp] at h
      simp only [opensLiteral, Bool.or_eq_true, beq_iff_eq, hw, false_or] at ho
      rw [isStringMark_wordStart ho] at hw
      cases hw.2.2
  | @escape _ rest m hc h =>
      cases x with
      | nil => cases hn
      | cons q x =>
          simp only [List.cons_append, List.cons.injEq] at hr
          obtain ⟨rfl, rfl⟩ := hr
          obtain rfl : x.length = m := by simpa using hn
          have hw := isEscapeLetter_wordStart hc
          refine ⟨?_, LiteralEnd.of_quoted (z := [c]) (forall_plain_singleton hw) h⟩
          rcases (isEscapeLetter_iff c).1 hc with rfl | rfl <;> decide
  | @string _ rest m hc h =>
      cases x with
      | nil => cases hn
      | cons q x =>
          simp only [List.cons_append, List.cons.injEq] at hr
          obtain ⟨rfl, rfl⟩ := hr
          obtain rfl : x.length = m := by simpa using hn
          have hw := (isStringLetter_wordStart hc).1
          refine ⟨?_, LiteralEnd.of_quoted (z := [c]) (forall_plain_singleton hw) h⟩
          rcases (isStringLetter_iff c).1 hc with rfl | rfl | rfl | rfl | rfl | rfl <;> decide
  | @unicode _ rest m hc h =>
      rcases x with _ | ⟨d, _ | ⟨q, x⟩⟩
      · cases hn
      · simp at hn
      · simp only [List.cons_append, List.cons.injEq] at hr
        obtain ⟨rfl, rfl, rfl⟩ := hr
        obtain rfl : x.length = m := by simpa using hn
        have hw := (isUnicodeLetter_wordStart hc).1
        refine ⟨?_, LiteralEnd.of_quoted (z := [c, 0x26]) ?_ h⟩
        · rcases (isUnicodeLetter_iff c).1 hc with rfl | rfl <;> decide
        · intro b hb
          rcases List.mem_cons.1 hb with rfl | hb
          · exact forall_plain_singleton hw b (List.mem_singleton_self b)
          · rw [List.mem_singleton.1 hb]
            constructor <;> decide
  | word hw hm =>
      simp only [opensLiteral, hm, Bool.or_false, Bool.or_eq_true, beq_iff_eq] at ho
      rcases ho with rfl | rfl <;> cases hw

theorem TokenForm.literalEnd {a : Bool} {c : UInt8} {x y : Bytes} {t : Token}
    (h : TokenForm a c (x ++ y) t) (ht : t.length = x.length + 1) (hl : t.isLiteral = true) :
    c < 0x80 ∧ LiteralEnd y (c :: x) := by
  generalize hr : x ++ y = rest at h
  cases h with
  | lineComment | blockComment | name | stray | word | space | other => cases hl
  | negative _ h =>
      subst hr
      have hx : numberLength (x ++ y) = x.length := by
        simp only [Token.literal] at ht
        omega
      refine ⟨by decide, .of_number y (List.forall_mem_cons.2 ⟨rfl, fun d hd => ?_⟩)⟩
      exact isNumberByte_of_mem (b := x ++ y) (by rwa [hx, List.take_left])
  | opened ho h =>
      subst hr ht
      exact (literalLength?_eq_some_iff.1 h).end ho
  | number h =>
      subst hr
      have hx : numberLength (c :: x ++ y) = (c :: x).length := ht
      have hmem : ∀ d ∈ c :: x, isNumberByte d = true := fun d hd =>
        isNumberByte_of_mem (b := c :: x ++ y) (by rwa [hx, List.take_left])
      exact ⟨isNumberByte_lt (hmem c List.mem_cons_self), .of_number y hmem⟩

/-- A token of code that does not reach to the end has a plain last byte, unless it is a backslash
or a quote without its like. -/
theorem TokenForm.codeEnd {a : Bool} {c : UInt8} {x y : Bytes} {t : Token} (hy : y ≠ [])
    (h : TokenForm a c (x ++ y) t) (ht : t.length = x.length + 1) (hl : t.isLiteral = false) :
    (∃ z d, c :: x = z ++ [d] ∧ IsPlain d) ∨ (c = 0x5C ∧ x = []) ∨
      (c = 0x27 ∧ x = [] ∧ closingLength? false y = none) := by
  generalize hr : x ++ y = rest at h
  cases h with
  | negative | opened | number => cases hl
  | lineComment h =>
      subst hr
      obtain ⟨z, rfl, -⟩ := @lengthThrough_split [0x0A] x y hy (by
        simp only [Token.code] at ht
        omega)
      exact Or.inl ⟨0x2D :: z, 0x0A, rfl, by constructor <;> decide⟩
  | @blockComment rest =>
      cases x with
      | nil =>
          simp only [Token.code, List.length_nil] at ht
          omega
      | cons d x =>
          simp only [List.cons_append, List.cons.injEq] at hr
          obtain ⟨rfl, rfl⟩ := hr
          obtain ⟨z, rfl, -⟩ := @lengthThrough_split [0x2A, 0x2F] x y hy (by
            simp only [Token.code, List.length_cons] at ht
            omega)
          exact Or.inl ⟨0x2F :: 0x2A :: (z ++ [0x2A]), 0x2F, by simp, by constructor <;> decide⟩
  | name =>
      subst hr
      obtain ⟨z, rfl⟩ := identifierLength_split hy x (by
        simp only [Token.code] at ht
        omega)
      exact Or.inl ⟨0x22 :: z, 0x22, rfl, by constructor <;> decide⟩
  | stray hc h =>
      obtain rfl : x = [] := by simpa [Token.code] using ht
      obtain rfl := hr
      rcases hc with rfl | rfl
      · refine Or.inr (Or.inr ⟨rfl, rfl, ?_⟩)
        simpa [literalLength?] using h
      · exact Or.inl ⟨[], 0x24, rfl, by constructor <;> decide⟩
  | word hw h =>
      subst hr
      have hx : wordLength (c :: x ++ y) = (c :: x).length := ht
      obtain ⟨z, d, hz⟩ := exists_last c x
      refine Or.inl ⟨z, d, hz, isPlain_of_word (isWordByte_of_mem (b := c :: x ++ y) ?_)⟩
      rw [hx, List.take_left, hz]
      simp
  | space h =>
      obtain rfl : x = [] := by simpa [Token.code] using ht
      refine Or.inl ⟨[], c, rfl, ?_⟩
      rcases (isSpace_iff c).1 h with rfl | rfl | rfl | rfl | rfl <;> constructor <;> decide
  | other _ hq _ _ _ _ _ _ =>
      obtain rfl : x = [] := by simpa [Token.code] using ht
      by_cases hc : c = 0x5C
      · exact Or.inr (Or.inl ⟨hc, rfl⟩)
      · exact Or.inl ⟨[], c, rfl, hq, hc⟩

end PlanFeedback.Query
