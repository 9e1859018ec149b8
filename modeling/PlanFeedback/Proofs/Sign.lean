import PlanFeedback.Proofs.Normalization
import PlanFeedback.Proofs.Substitution

/-!
A minus that is read as the sign of a number leaves no trace in the normal form. Taking it away
changes no token before it: what stands in front of the sign ends with a byte that no token goes on
with, and a literal that is not closed behind that byte is not closed without the sign either.
-/
namespace PlanFeedback.Query

open Text

/-- The bytes are none, or their last one is inert. -/
def EndsInert (p : Bytes) : Prop := ∀ d ∈ p.getLast?, isInert d = true

theorem EndsInert.cases {p : Bytes} (h : EndsInert p) :
    p = [] ∨ ∃ z d, p = z ++ [d] ∧ isInert d = true := by
  cases p with
  | nil => exact Or.inl rfl
  | cons c p =>
      obtain ⟨z, d, hz⟩ := exists_last c p
      refine Or.inr ⟨z, d, hz, h d ?_⟩
      rw [hz, List.getLast?_concat]
      rfl

theorem EndsInert.of_append {x q : Bytes} (h : EndsInert (x ++ q)) : EndsInert q := by
  intro d hd
  apply h
  rw [List.getLast?_append, hd]
  rfl

/-! Literals that are not closed. -/

theorem isInert_not_mem_tag {d : UInt8} (hd : isInert d = true) {tag : Bytes}
    (ht : ∀ t ∈ tag, isTagByte t = true) : d ∉ tag := by
  intro hmem
  have hword : isWordByte d = true := by rw [isWordByte, ht d hmem, Bool.true_or]
  rw [isInert_not_word d hd] at hword
  cases hword

theorem isInert_ne {d b : UInt8} (hd : isInert d = true) (hb : isInert b = false) : d ≠ b := by
  rintro rfl
  rw [hd] at hb
  cases hb

/-- A part without `d` that begins some bytes lies before the first `d` among them. -/
theorem split_before {d : UInt8} {z w u r : Bytes} (h : z ++ d :: w = u ++ r) (hu : d ∉ u) :
    ∃ v, z = u ++ v ∧ r = v ++ d :: w := by
  rcases List.append_eq_append_iff.1 h with ⟨v, rfl, hr⟩ | ⟨v, rfl, rfl⟩
  · cases v with
    | nil => exact ⟨[], by simp, hr.symm⟩
    | cons e v =>
        obtain ⟨rfl, -⟩ := List.cons.inj hr
        exact absurd (List.mem_append_right z List.mem_cons_self) hu
  · exact ⟨v, rfl, rfl⟩

/-- A mark without `d` that occurs around a `d` occurs also when something is put behind the `d`. -/
theorem occurs_behind {d : UInt8} {z w body mark y : Bytes} (v : Bytes)
    (h : z ++ d :: w = body ++ (mark ++ y)) (hmark : d ∉ mark) (hne : mark ≠ []) :
    ∃ body' y', z ++ d :: (v ++ w) = body' ++ (mark ++ y') := by
  rcases List.append_eq_append_iff.1 h with ⟨more, rfl, hw⟩ | ⟨more, rfl, hz⟩
  · cases more with
    | nil =>
        cases mark with
        | nil => exact absurd rfl hne
        | cons e mark =>
            obtain ⟨rfl, -⟩ := List.cons.inj hw
            exact absurd List.mem_cons_self hmark
    | cons e more =>
        obtain ⟨rfl, rfl⟩ := List.cons.inj hw
        exact ⟨z ++ d :: (v ++ more), y, by simp⟩
  · obtain ⟨rest, rfl, -⟩ := split_before hz.symm hmark
    exact ⟨body, rest ++ d :: (v ++ w), by simp⟩

/-- A dollar quote around an inert byte is one also when something is put behind that byte. -/
theorem dollarQuotedLength?_behind {d : UInt8} (hd : isInert d = true) {z w : Bytes} (v : Bytes)
    (hnone : dollarQuotedLength? (z ++ d :: (v ++ w)) = none) :
    dollarQuotedLength? (z ++ d :: w) = none := by
  by_contra hne
  obtain ⟨n, hn⟩ := Option.ne_none_iff_exists'.1 hne
  obtain ⟨tag, body, y, hsplit, ht, hdigit, -, -⟩ := dollarQuoted_split hn
  have htag : d ∉ tag := isInert_not_mem_tag hd ht
  have hdollar : d ≠ 0x24 := isInert_ne hd (by decide)
  rw [← List.singleton_append (l := body ++ _ ++ y), ← List.append_assoc] at hsplit
  obtain ⟨z, rfl, hrest⟩ := split_before hsplit (by simp [htag, hdollar])
  rw [List.append_assoc] at hrest
  obtain ⟨body', y', hbody⟩ := occurs_behind v hrest.symm (by simp [htag, hdollar]) (by simp)
  rw [List.append_assoc, List.append_assoc, hbody, List.singleton_append] at hnone
  exact dollarQuotedLength?_of_mark ht hdigit body' y' hnone

theorem closingLength?_without {escapes : Bool} {d v : UInt8} (hd : IsPlain d) (hv : IsPlain v)
    {z w : Bytes} (hnone : closingLength? escapes (z ++ d :: v :: w) = none) :
    closingLength? escapes (z ++ d :: w) = none := by
  obtain ⟨hbehind, hback⟩ := closingLength?_sync hd z hnone
  rw [closingLength?_eq_none_plain w hv] at hbehind
  exact hback w hbehind

theorem isPlain_of_inert {d : UInt8} (hd : isInert d = true) : IsPlain d :=
  ⟨isInert_ne hd (by decide), isInert_ne hd (by decide)⟩

/-- A literal that is not closed is not closed either without a plain byte behind an inert one. -/
theorem literalLength?_without {c d v : UInt8} (hd : isInert d = true) (hv : IsPlain v)
    {z w : Bytes} (ho : opensLiteral (c :: (z ++ d :: v :: w)) = true)
    (hnone : literalLength? (c :: (z ++ d :: v :: w)) = none) :
    literalLength? (c :: (z ++ d :: w)) = none := by
  have hplain := isPlain_of_inert hd
  have hamp : d ≠ 0x26 := isInert_ne hd (by decide)
  simp only [opensLiteral, Bool.or_eq_true, beq_iff_eq, isStringMark_singleton,
    Bool.and_eq_true] at ho
  rcases ho with (rfl | rfl) | ⟨hc, hq⟩ | ⟨hc, hu⟩
  · simp only [literalLength?, if_true, Option.map_eq_none_iff] at hnone ⊢
    exact closingLength?_without hplain hv hnone
  · rw [literalLength?_dollar] at hnone ⊢
    split at hnone
    · cases hnone
    · rename_i hdigit
      have hdigit' : ¬ startsDigit (z ++ d :: w) = true := by
        cases z with
        | nil => exact hdigit
        | cons e z => exact hdigit
      rw [if_neg hdigit']
      exact dollarQuotedLength?_behind hd [v] hnone
  · obtain ⟨r, hr⟩ := startsQuote_eq_true hq
    cases z with
    | nil =>
        obtain ⟨rfl, -⟩ := List.cons.inj hr
        exact absurd rfl hplain.1
    | cons e z =>
        obtain ⟨rfl, rfl⟩ := List.cons.inj hr
        rcases hc with hc | hc
        · rw [List.cons_append, literalLength?_escape hc, Option.map_eq_none_iff] at hnone ⊢
          exact closingLength?_without hplain hv hnone
        · rw [List.cons_append, literalLength?_string hc, Option.map_eq_none_iff] at hnone ⊢
          exact closingLength?_without hplain hv hnone
  · obtain ⟨r, hr⟩ := startsUnicodeQuote_eq_true hu
    rcases z with _ | ⟨e, _ | ⟨f, z⟩⟩
    · obtain ⟨rfl, -⟩ := List.cons.inj hr
      exact absurd rfl hamp
    · obtain ⟨-, hr⟩ := List.cons.inj hr
      obtain ⟨rfl, -⟩ := List.cons.inj hr
      exact absurd rfl hplain.1
    · simp only [List.cons_append, List.cons.injEq] at hr
      obtain ⟨rfl, rfl, rfl⟩ := hr
      simp only [List.cons_append, literalLength?_unicode hc, Option.map_eq_none_iff] at hnone ⊢
      exact closingLength?_without hplain hv hnone

/-! The tokens before the sign. -/

section Token

variable {a : Bool} {c : UInt8} {x y : Bytes} {t : Token}

theorem LiteralEnd.not_inert {z : Bytes} {d : UInt8} (h : LiteralEnd y (z ++ [d])) :
    isInert d = false := by
  generalize hw : z ++ [d] = w at h
  cases h with
  | plain z' _ _ hd =>
      obtain ⟨-, hsame⟩ := List.append_inj' hw rfl
      obtain rfl := List.singleton_inj.1 hsame
      exact hd
  | @quoted _ z' body _ _ _ =>
      rw [← List.cons_append, ← List.append_assoc] at hw
      obtain ⟨-, hsame⟩ := List.append_inj' hw rfl
      obtain rfl := List.singleton_inj.1 hsame
      decide

/-- A token whose last byte is inert is the same token whatever follows it, but for an asterisk. -/
theorem TokenForm.behind_inert {z y' : Bytes} {d : UInt8} (hy : y ≠ [])
    (hstar : y'.head? ≠ some 0x2A) (h : TokenForm a c (x ++ y) t) (ht : t.length = x.length + 1)
    (hlast : c :: x = z ++ [d]) (hd : isInert d = true) : TokenForm a c (x ++ y') t := by
  have hcode : t.isLiteral = false := by
    rw [Bool.eq_false_iff]
    intro hl
    have hend := (h.literalEnd ht hl).2
    rw [hlast] at hend
    rw [hend.not_inert] at hd
    cases hd
  have hsingle : x = [] → c = d := by
    rintro rfl
    cases z with
    | nil => exact List.singleton_inj.1 hlast
    | cons e z => cases z <;> cases hlast
  generalize hr : x ++ y = rest at h
  cases h with
  | negative | opened | number => cases hcode
  | lineComment h =>
      subst hr
      exact .lineComment_exchange y' hy h (by simp only [Token.code] at ht; omega)
  | blockComment => exact .blockComment_exchange y' hy hr ht
  | name =>
      subst hr
      obtain ⟨z', rfl⟩ := identifierLength_split hy x (by
        simp only [Token.code] at ht
        omega)
      rw [← List.cons_append] at hlast
      obtain ⟨-, hsame⟩ := List.append_inj' hlast rfl
      obtain rfl := List.singleton_inj.1 hsame
      cases hd
  | stray hc _ =>
      obtain rfl : x = [] := by simpa [Token.code] using ht
      obtain rfl := hsingle rfl
      rcases hc with rfl | rfl <;> cases hd
  | word hw _ =>
      subst hr
      have hx : wordLength (c :: x ++ y) = (c :: x).length := ht
      have hword : isWordByte d = true := isWordByte_of_mem (b := c :: x ++ y) (by
        rw [hx, List.take_left, hlast]
        simp)
      rw [isInert_not_word d hd] at hword
      cases hword
  | space h =>
      obtain rfl : x = [] := by simpa [Token.code] using ht
      exact .space h
  | other hn hq hdollar hw hs _ _ _ =>
      obtain rfl : x = [] := by simpa [Token.code] using ht
      obtain rfl := hsingle rfl
      refine .other hn hq hdollar hw hs ?_ ?_ fun _ => hstar
      · have hpoint : c ≠ 0x2E := isInert_ne hd (by decide)
        simp [startsNumber, isInert_not_digit c hd, hpoint]
      · exact fun hc => absurd hc (isInert_ne hd (by decide))

/-- Before a sign and without it the tokens are the same ones, if an inert byte precedes the sign. -/
theorem TokenForm.unsigned {q w : Bytes} (h : TokenForm a c (x ++ (q ++ 0x2D :: w)) t)
    (ht : t.length = x.length + 1) (hend : EndsInert (c :: x ++ q))
    (hstar : w.head? ≠ some 0x2A) : TokenForm a c (x ++ (q ++ w)) t := by
  rcases hend.of_append.cases with rfl | ⟨z, d, rfl, hd⟩
  · rw [List.append_nil] at hend
    obtain h0 | ⟨z, d, hlast, hd⟩ := hend.cases
    · cases h0
    · exact h.behind_inert (by simp) hstar ht hlast hd
  · have hmove : ∀ r, z ++ [d] ++ r = z ++ d :: r := fun r => by simp
    rw [hmove] at h ⊢
    refine h.exchange ((StartsInert.cons hd w).follows z _) (by simp) ?_ ht
    intro ho hnone
    rw [← List.append_assoc] at ho hnone ⊢
    exact literalLength?_without hd (by constructor <;> decide) ho hnone

/-- A literal that begins with a minus is the sign of a number. -/
theorem TokenForm.sign_inv {rest : Bytes} (h : TokenForm a 0x2D rest t) (hl : t.isLiteral = true) :
    startsNumber rest = true ∧ t = .literal (1 + numberLength rest) := by
  cases h with
  | lineComment | stray | word | space | other => cases hl
  | negative _ hn => exact ⟨hn, rfl⟩
  | opened ho _ => cases ho
  | number hn => cases hn

end Token

theorem blank_number {w : Bytes} (a : Bool) (hn : startsNumber w = true) :
    blank a w = placeholder :: blank true (w.drop (numberLength w)) := by
  cases w with
  | nil => cases hn
  | cons c w =>
      obtain ⟨x, y, t, rfl, hform, ht⟩ := token_split a c w
      obtain rfl := hform.unique (.number hn)
      have hlength : numberLength (c :: (x ++ y)) = (c :: x).length := ht
      rw [blank_token hform ht, hlength, ← List.cons_append, List.drop_left]
      rfl

/-- A sign is blanked with its number, and the text without the sign is blanked in the same way. -/
theorem blank_unsigned {w : Bytes} {n : Nat} (a : Bool) (b : Bytes) : ∀ pre p : Bytes,
    b = p ++ 0x2D :: w → EndsInert p →
      Location.span (pre.length + p.length) n ∈ scanFrom a pre.length b →
      startsNumber w = true ∧ blank a b = blank a (p ++ w) := by
  induction a, b using token_induction with
  | nil a =>
      intro pre p hb
      exact absurd hb.symm (by simp)
  | token a c x y t h ht ih =>
      intro pre p hb hend hspan
      have hpre : (pre ++ c :: x).length = pre.length + t.length := by
        rw [List.length_append, List.length_cons, ht]
      cases p with
      | nil =>
          obtain ⟨rfl, hxy⟩ := List.cons.inj hb
          obtain ⟨hn, hsign⟩ := h.sign_inv (h.of_span ht hspan).1
          have hx : numberLength (x ++ y) = x.length := by
            rw [hsign] at ht
            simp only [Token.literal] at ht
            omega
          rw [← hxy]
          refine ⟨hn, ?_⟩
          rw [blank_token h ht, hsign, List.nil_append, blank_number a hn, hx, List.drop_left]
          rfl
      | cons c' p =>
          obtain ⟨hle, hlater⟩ := h.of_span_later (k := (c' :: p).length) ht (Nat.succ_pos _) hspan
          obtain ⟨q, hp, rfl⟩ := split_within hb (by rwa [List.length_cons, ← ht])
          have hsum : pre.length + (c :: x ++ q).length = (pre ++ c :: x).length + q.length := by
            simp only [List.length_append, List.length_cons]
            omega
          rw [hp] at hend hlater ⊢
          rw [hsum, ← hpre] at hlater
          obtain ⟨hn, hblank⟩ := ih (pre ++ c :: x) q rfl hend.of_append hlater
          have hstar : w.head? ≠ some 0x2A := head_ne_of_startsNumber hn rfl (by decide)
          refine ⟨hn, ?_⟩
          rw [blank_token h ht, hblank, List.append_assoc, List.cons_append,
            blank_token (h.unsigned ht hend hstar) ht]

/-- The marks behind which a minus can be the sign of a number: blanks, an opening parenthesis, a
comma and an equals sign. -/
def signMarks : List Char := [' ', '\t', '\n', '\x0C', '\r', '(', ',', '=']

theorem endsInert_utf8 {p : String} (hp : ∀ c ∈ p.toList.getLast?, c ∈ signMarks) :
    EndsInert (utf8 p) := by
  intro d hd
  rcases List.eq_nil_or_concat p.toList with hnil | ⟨cs, c, hlast⟩
  · rw [utf8, hnil] at hd
    cases hd
  · have hc := hp c (by rw [hlast, List.concat_eq_append, List.getLast?_concat]; rfl)
    rw [utf8, hlast, List.concat_eq_append, List.flatMap_append, List.flatMap_singleton] at hd
    simp only [signMarks, List.mem_cons, List.not_mem_nil, or_false] at hc
    rcases hc with rfl | rfl | rfl | rfl | rfl | rfl | rfl | rfl
    all_goals
      rw [List.getLast?_append] at hd
      obtain rfl := Option.some.inj hd
      rfl

/-- A minus that the scanner takes for the sign of a number does not count: the normal form and the
fingerprint are those of the text without it. -/
theorem normalize_unsigned {p n s : String} (hp : ∀ c ∈ p.toList.getLast?, c ∈ signMarks)
    (hspan : Location.span (utf8 p).length (1 + (utf8 n).length) ∈ scan (p ++ "-" ++ n ++ s)) :
    normalize (p ++ "-" ++ n ++ s) (scan (p ++ "-" ++ n ++ s)) =
        normalize (p ++ n ++ s) (scan (p ++ n ++ s)) ∧
      (Source.new (p ++ "-" ++ n ++ s) (scan (p ++ "-" ++ n ++ s))).fingerprint? =
        (Source.new (p ++ n ++ s) (scan (p ++ n ++ s))).fingerprint? := by
  have hsigned : utf8 (p ++ "-" ++ n ++ s) = utf8 p ++ 0x2D :: (utf8 n ++ utf8 s) := by
    simp only [utf8_append, List.append_assoc]
    rfl
  have hplain : utf8 (p ++ n ++ s) = utf8 p ++ (utf8 n ++ utf8 s) := by
    simp only [utf8_append, List.append_assoc]
  obtain ⟨-, hblank⟩ := blank_unsigned false (utf8 (p ++ "-" ++ n ++ s)) [] (utf8 p) hsigned
    (endsInert_utf8 hp) (by simpa [scan] using hspan)
  have hnormal : normalize (p ++ "-" ++ n ++ s) (scan (p ++ "-" ++ n ++ s)) =
      normalize (p ++ n ++ s) (scan (p ++ n ++ s)) := by
    apply utf8_injective
    rw [utf8_normalize, utf8_normalize, hblank, hplain]
  exact ⟨hnormal, by rw [fingerprint_new, fingerprint_new, hnormal]⟩

/-- Behind a quote that is not closed and a tag without its like. -/
theorem normalize_unsigned_unclosed :
    Location.span 15 6 ∈ scan ("SELECT 'a, $q$(" ++ "-" ++ "1.5e3" ++ ", -2") ∧
      normalize ("SELECT 'a, $q$(" ++ "-" ++ "1.5e3" ++ ", -2")
          (scan ("SELECT 'a, $q$(" ++ "-" ++ "1.5e3" ++ ", -2")) =
        normalize ("SELECT 'a, $q$(" ++ "1.5e3" ++ ", -2")
          (scan ("SELECT 'a, $q$(" ++ "1.5e3" ++ ", -2")) := by
  have hspan : Location.span (utf8 "SELECT 'a, $q$(").length (1 + (utf8 "1.5e3").length) ∈
      scan ("SELECT 'a, $q$(" ++ "-" ++ "1.5e3" ++ ", -2") := by decide +kernel
  have hlast : ∀ c ∈ "SELECT 'a, $q$(".toList.getLast?, c ∈ signMarks := by simp [signMarks]
  exact ⟨hspan, (normalize_unsigned hlast hspan).1⟩

end PlanFeedback.Query
