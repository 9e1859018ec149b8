import PlanFeedback.Proofs.TokenRun

/-!
A literal may be exchanged for another one that opens in the same way: the normal form, and with it
the fingerprint, stays what it was.
-/
namespace PlanFeedback.Query

open Text

/-- The positions at which the scanner reads the tokens of the remaining bytes. -/
def tokenStartsFrom (afterOperand : Bool) (position : Nat) : Bytes → List Nat
  | [] => []
  | c :: rest =>
    let token := nextToken afterOperand c rest
    position :: tokenStartsFrom token.afterOperand (position + token.length)
      (rest.drop (token.length - 1))
termination_by b => b.length

def tokenStarts (text : String) : List Nat := tokenStartsFrom false 0 (utf8 text)

/-- The bytes open no literal, or one that is closed. -/
def ClosesLiteral (z : Bytes) : Prop := opensLiteral z = true → (literalLength? z).isSome = true

theorem ClosesLiteral.ne_none {z : Bytes} (h : ClosesLiteral z) (ho : opensLiteral z = true) :
    literalLength? z ≠ none :=
  Option.isSome_iff_ne_none.1 (h ho)

/-- Two literals begin with a digit each, or with the same opening: a minus, a quote, a dollar sign,
or the letters and the quote of a string constant. -/
inductive SameOpening : Bytes → Bytes → Prop where
  | digit {c d : UInt8} {x y : Bytes} :
      isDigit c = true → isDigit d = true → SameOpening (c :: x) (d :: y)
  | minus {x y : Bytes} : SameOpening (0x2D :: x) (0x2D :: y)
  | quote {x y : Bytes} : SameOpening (0x27 :: x) (0x27 :: y)
  | dollar {x y : Bytes} : SameOpening (0x24 :: x) (0x24 :: y)
  | letter {c : UInt8} {x y : Bytes} : isEscapeLetter c = true ∨ isStringLetter c = true →
      SameOpening (c :: 0x27 :: x) (c :: 0x27 :: y)
  | unicode {c : UInt8} {x y : Bytes} : isUnicodeLetter c = true →
      SameOpening (c :: 0x26 :: 0x27 :: x) (c :: 0x26 :: 0x27 :: y)

namespace SameOpening

variable {x y : Bytes}

theorem append (h : SameOpening x y) (s : Bytes) : SameOpening (x ++ s) (y ++ s) := by
  cases h with
  | digit hc hd => exact .digit hc hd
  | minus => exact .minus
  | quote => exact .quote
  | dollar => exact .dollar
  | letter h => exact .letter h
  | unicode h => exact .unicode h

theorem head (h : SameOpening x y) {b' : UInt8} (hb : b' ∈ y.head?) :
    ∃ b ∈ x.head?, b = b' ∨ (isDigit b ∧ isDigit b') := by
  cases h with
  | digit hc hd =>
      obtain rfl := Option.some.inj hb
      exact ⟨_, rfl, Or.inr ⟨hc, hd⟩⟩
  | minus | quote | dollar | letter _ | unicode _ => exact ⟨b', hb, Or.inl rfl⟩

theorem startsDigit (h : SameOpening x y) (hy : startsDigit y = true) : startsDigit x = true := by
  rw [startsDigit_iff] at hy ⊢
  obtain ⟨b', hb', hd'⟩ := hy
  obtain ⟨b, hb, rfl | ⟨hd, -⟩⟩ := h.head hb'
  · exact ⟨b, hb, hd'⟩
  · exact ⟨b, hb, hd⟩

theorem startsQuote (h : SameOpening x y) (hy : startsQuote y = true) : startsQuote x = true := by
  rw [startsQuote_iff] at hy ⊢
  obtain ⟨b, hb, rfl | ⟨-, hd⟩⟩ := h.head hy
  · exact hb
  · cases hd

/-- The letter of a string constant is neither a digit nor a point nor an ampersand. -/
theorem letter_facts {c : UInt8} (h : isWordStart c = true) :
    isDigit c = false ∧ c ≠ 0x2E ∧ c ≠ 0x26 := by
  refine ⟨isWordStart_not_digit h, ?_, ?_⟩ <;> rintro rfl <;> cases h

theorem letter_wordStart {c : UInt8} (h : isEscapeLetter c = true ∨ isStringLetter c = true) :
    isWordStart c = true :=
  h.elim isEscapeLetter_wordStart fun h => (isStringLetter_wordStart h).1

theorem startsNumber (h : SameOpening x y) (hy : startsNumber y = true) :
    startsNumber x = true := by
  cases h with
  | digit hc hd => simp [Query.startsNumber, hc]
  | minus | quote | dollar => cases hy
  | letter h =>
      simp [Query.startsNumber, letter_facts (letter_wordStart h)] at hy
  | unicode h =>
      simp [Query.startsNumber, letter_facts (isUnicodeLetter_wordStart h).1] at hy

theorem not_exponent (h : SameOpening x y) : exponentLength y = 0 := by
  cases h with
  | digit hc hd =>
      rename_i c d x y
      have hd : ¬ (d = 0x65 ∨ d = 0x45) := by rintro (rfl | rfl) <;> cases hd
      simp [exponentLength, hd]
  | minus | quote | dollar => simp [exponentLength]
  | letter _ => simp [exponentLength, signLength, Query.startsDigit, isDigit]
  | unicode _ => simp [exponentLength, signLength, Query.startsDigit, isDigit]

theorem not_unicode (h : SameOpening x y) : startsUnicodeQuote y = false := by
  cases h with
  | digit hc hd =>
      rename_i c d x y
      have hd : d ≠ 0x26 := by rintro rfl; cases hd
      simp [startsUnicodeQuote, hd]
  | minus | quote | dollar => rfl
  | letter h => simp [startsUnicodeQuote, letter_facts (letter_wordStart h)]
  | unicode h => simp [startsUnicodeQuote, letter_facts (isUnicodeLetter_wordStart h).1]

/-- Behind the letter of an exponent both bring a digit or neither does, but for a minus. -/
theorem signed_digit (h : SameOpening x y) (hx : x.head? ≠ some 0x2D)
    (hy : Query.startsDigit (y.drop (signLength y)) = true) :
    Query.startsDigit (x.drop (signLength x)) = true := by
  have hword : ∀ {c : UInt8} {y : Bytes}, isWordStart c = true →
      Query.startsDigit ((c :: y).drop (signLength (c :: y))) = false := by
    intro c y hc
    have hs : ¬ (c = 0x2B ∨ c = 0x2D) := by rintro (rfl | rfl) <;> cases hc
    simp only [signLength, hs, if_false, List.drop_zero, Query.startsDigit, (letter_facts hc).1]
  cases h with
  | @digit c d x y hc hd =>
      have hs : ¬ (c = 0x2B ∨ c = 0x2D) := by rintro (rfl | rfl) <;> cases hc
      simp only [signLength, hs, if_false, List.drop_zero, Query.startsDigit, hc]
  | minus => exact absurd rfl hx
  | quote | dollar => cases hy
  | letter h =>
      rw [hword (letter_wordStart h)] at hy
      cases hy
  | unicode h =>
      rw [hword (isUnicodeLetter_wordStart h).1] at hy
      cases hy

/-- The two are alike to a token that ends before them or before some `w` that precedes both, but
for a minus behind the letter of an exponent. -/
theorem follows (h : SameOpening x y) (w : Bytes)
    (hexp : w = [0x65] ∨ w = [0x45] → x.head? ≠ some 0x2D) : Follows (w ++ x) (w ++ y) := by
  match w with
  | [] =>
      refine ⟨fun b' hb' => Or.inr (h.head hb'), h.startsNumber, fun he => absurd h.not_exponent he,
        fun hu => ?_⟩
      rw [List.nil_append, h.not_unicode] at hu
      cases hu
  | [c] =>
      refine ⟨fun b' hb' => Or.inr ⟨c, rfl, Or.inl (Option.some.inj hb')⟩, ?_, ?_, ?_⟩
      · intro hn
        simp only [List.singleton_append, Query.startsNumber, Bool.or_eq_true,
          Bool.and_eq_true] at hn ⊢
        exact hn.imp_right (And.imp_right h.startsDigit)
      · intro he
        simp only [List.singleton_append, exponentLength_ne_zero] at he ⊢
        refine ⟨he.1, h.signed_digit (hexp ?_) he.2⟩
        rcases he.1 with rfl | rfl
        · exact Or.inl rfl
        · exact Or.inr rfl
      · intro hu
        simp only [List.singleton_append, startsUnicodeQuote, Bool.and_eq_true] at hu ⊢
        exact ⟨hu.1, h.startsQuote hu.2⟩
  | c :: d :: w =>
      refine ⟨fun b' hb' => Or.inr ⟨c, rfl, Or.inl (Option.some.inj hb')⟩, id, ?_, id⟩
      intro he
      simp only [List.cons_append, exponentLength_ne_zero, signLength] at he ⊢
      apply he.imp_right
      intro he
      split
      · rename_i hd
        rw [if_pos hd] at he
        cases w with
        | nil => exact h.startsDigit he
        | cons e w => exact he
      · rename_i hd
        rw [if_neg hd] at he
        exact he

end SameOpening

section Token

variable {a : Bool} {c : UInt8} {x y : Bytes} {t : Token}

theorem tokenStartsFrom_token (position : Nat) (h : TokenForm a c (x ++ y) t)
    (ht : t.length = x.length + 1) : tokenStartsFrom a position (c :: (x ++ y)) =
      position :: tokenStartsFrom t.afterOperand (position + t.length) y := by
  have hdrop : (x ++ y).drop (t.length - 1) = y := by
    rw [ht, Nat.add_sub_cancel, List.drop_left]
  rw [tokenStartsFrom]
  simp only [h.nextToken, hdrop]

/-- What holds at every start of a token holds at this one and at those behind it. -/
theorem forall_tokenStarts {P : Nat → Bytes → Prop} {pre : Bytes} (h : TokenForm a c (x ++ y) t)
    (ht : t.length = x.length + 1)
    (hall : ∀ i ∈ tokenStartsFrom a pre.length (c :: (x ++ y)),
      P i ((pre ++ c :: (x ++ y)).drop i)) :
    P pre.length (c :: (x ++ y)) ∧
      ∀ i ∈ tokenStartsFrom t.afterOperand (pre ++ c :: x).length y,
        P i (((pre ++ c :: x) ++ y).drop i) := by
  have hassoc : pre ++ c :: (x ++ y) = (pre ++ c :: x) ++ y := by simp
  have hpre : (pre ++ c :: x).length = pre.length + t.length := by
    rw [List.length_append, List.length_cons, ht]
  rw [tokenStartsFrom_token _ h ht, ← hpre] at hall
  obtain ⟨hhere, hlater⟩ := List.forall_mem_cons.1 hall
  rw [List.drop_left] at hhere
  rw [hassoc] at hlater
  exact ⟨hhere, hlater⟩

theorem split_within {p r : Bytes} (hb : c :: (x ++ y) = p ++ r) (hle : (c :: x).length ≤ p.length) :
    ∃ q, p = c :: x ++ q ∧ y = q ++ r := by
  rw [← List.cons_append] at hb
  have htoken : c :: x <+: p ++ r := hb ▸ List.prefix_append (c :: x) y
  obtain ⟨q, rfl⟩ : c :: x <+: p :=
    List.prefix_of_prefix_length_le htoken (List.prefix_append p r) hle
  rw [List.append_assoc] at hb
  exact ⟨q, rfl, List.append_cancel_left hb⟩

/-- A span where a token starts is that token. -/
theorem TokenForm.of_span {position n : Nat} (h : TokenForm a c (x ++ y) t)
    (ht : t.length = x.length + 1)
    (hspan : Location.span position n ∈ scanFrom a position (c :: (x ++ y))) :
    t.isLiteral = true ∧ t.length = n := by
  rw [scanFrom_token position h ht, List.mem_append] at hspan
  rcases hspan with hs | hs
  · split at hs
    · rename_i hl
      have := List.mem_singleton.1 hs
      simp only [Location.span, Location.mk.injEq, Option.some.injEq, true_and] at this
      exact ⟨hl, this.symm⟩
    · cases hs
  · have hge := scanFrom_offset_ge _ _ _ _ hs
    simp only [Location.span] at hge
    omega

/-- A span behind the start of a token is found behind the token. -/
theorem TokenForm.of_span_later {position k n : Nat} (h : TokenForm a c (x ++ y) t)
    (ht : t.length = x.length + 1) (hk : 0 < k)
    (hspan : Location.span (position + k) n ∈ scanFrom a position (c :: (x ++ y))) :
    t.length ≤ k ∧
      Location.span (position + k) n ∈ scanFrom t.afterOperand (position + t.length) y := by
  rw [scanFrom_token position h ht, List.mem_append] at hspan
  rcases hspan with hs | hs
  · split at hs
    · have := List.mem_singleton.1 hs
      simp only [Location.span, Location.mk.injEq] at this
      omega
    · cases hs
  · have hge := scanFrom_offset_ge _ _ _ _ hs
    simp only [Location.span] at hge
    exact ⟨by omega, hs⟩

theorem TokenForm.eq_literal (h : TokenForm a c (x ++ y) t) (hl : t.isLiteral = true) :
    t = .literal t.length := by
  generalize x ++ y = rest at h
  cases h with
  | lineComment | blockComment | name | stray | word | space | other => cases hl
  | negative | opened | number => rfl

/-- Where a literal stood, another one that opens like it is read as far as it reaches. -/
theorem TokenForm.same_opening {d : UInt8} {x' : Bytes} (h : TokenForm a c (x ++ y) t)
    (hl : t.isLiteral = true) (ho : SameOpening (c :: x) (d :: x'))
    (hlength : literalLength? (d :: (x' ++ y)) = some (x'.length + 1)) :
    TokenForm a d (x' ++ y) (.literal (x'.length + 1)) := by
  cases ho with
  | digit hc hd =>
      have hn : startsNumber (d :: (x' ++ y)) = true := by simp [startsNumber, hd]
      have hlen := (LiteralForm.number hn).length
      rw [hlength, Option.some.injEq] at hlen
      rw [hlen]
      exact .number hn
  | minus =>
      have ha : a = false := by
        generalize x ++ y = rest at h
        cases h with
        | negative ha _ => exact ha
        | opened ho _ => cases ho
        | number hn => cases hn
        | lineComment | stray | word | space | other => cases hl
      generalize hr : x' ++ y = rest at hlength
      generalize x'.length + 1 = n at hlength
      cases literalLength?_eq_some_iff.1 hlength with
      | signed _ hn => exact .negative ha hn
      | number hn => cases hn
      | escape hc _ | string hc _ | unicode hc _ | word hc _ => cases hc
  | quote | dollar => exact .opened rfl hlength
  | letter hc =>
      refine .opened ?_ hlength
      rcases hc with hc | hc <;> simp [opensLiteral, isStringMark, startsQuote, hc]
  | unicode hc =>
      exact .opened (by simp [opensLiteral, isStringMark, startsUnicodeQuote, startsQuote, hc])
        hlength

end Token

/-- Behind the letter `e` a minus is no sign: the letter is an operand. -/
theorem not_span_exponent {a : Bool} {c : UInt8} {x : Bytes} {position n : Nat}
    (hc : c = 0x65 ∨ c = 0x45) :
    Location.span (position + 1) n ∉ scanFrom a position (c :: 0x2D :: x) := by
  intro hspan
  have hform : TokenForm a c ([] ++ 0x2D :: x) (.code 1 true) := by
    rcases hc with rfl | rfl <;> exact .word rfl fun hm => by cases hm
  obtain ⟨-, hspan⟩ := hform.of_span_later rfl Nat.one_pos hspan
  obtain ⟨z, w, t, rfl, hform, ht⟩ := token_split true 0x2D x
  have hl := (hform.of_span ht hspan).1
  generalize z ++ w = rest at hform
  cases hform with
  | negative ha _ => cases ha
  | opened ho _ => cases ho
  | number hn => cases hn
  | lineComment | stray | word | space | other => cases hl

/-- Before a literal the bytes of another one with the same opening are read as its bytes are. -/
theorem SameOpening.follows_of_span {a : Bool} {position n : Nat} {p l l₂ s : Bytes}
    (ho : SameOpening l l₂)
    (hspan : Location.span (position + p.length) n ∈ scanFrom a position (p ++ (l ++ s))) :
    Follows (p ++ (l ++ s)) (p ++ (l₂ ++ s)) := by
  apply (ho.append s).follows p
  intro he hhead
  obtain ⟨v, hv⟩ : ∃ v, l ++ s = 0x2D :: v := by
    cases hls : l ++ s with
    | nil =>
        rw [hls] at hhead
        cases hhead
    | cons b v =>
        rw [hls] at hhead
        exact ⟨v, by rw [Option.some.inj hhead]⟩
  rw [hv] at hspan
  rcases he with rfl | rfl
  · exact not_span_exponent (Or.inl rfl) hspan
  · exact not_span_exponent (Or.inr rfl) hspan

/-- Two texts that differ in one literal are blanked alike. The tokens before the literal end where
they did, and the scan goes on behind it in the same context. -/
theorem blank_substitute {l l₂ s : Bytes} (ho : SameOpening l l₂)
    (hlength : literalLength? (l₂ ++ s) = some l₂.length) (a : Bool) (b : Bytes) :
    ∀ pre p, b = p ++ (l ++ s) →
      Location.span (pre.length + p.length) l.length ∈ scanFrom a pre.length b →
      (∀ i ∈ tokenStartsFrom a pre.length b, i < pre.length + p.length →
        ClosesLiteral ((pre ++ b).drop i)) →
      blank a b = blank a (p ++ (l₂ ++ s)) := by
  induction a, b using token_induction with
  | nil a =>
      intro pre p hb hspan
      rw [scanFrom] at hspan
      cases hspan
  | token a c x y t h ht ih =>
      intro pre p hb hspan hclosed
      cases p with
      | nil =>
          obtain ⟨hl, hlen⟩ := h.of_span ht hspan
          obtain ⟨rfl, rfl⟩ : c :: x = l ∧ y = s :=
            List.append_inj hb (by rw [List.length_cons, ← ht, hlen])
          cases l₂ with
          | nil => cases ho
          | cons d x' =>
              have h₂ := h.same_opening hl ho hlength
              rw [List.nil_append, List.cons_append, blank_token h ht, blank_token h₂ rfl,
                h.eq_literal hl]
              rfl
      | cons c' p =>
          obtain ⟨hle, hlater⟩ := h.of_span_later (k := (c' :: p).length) ht (Nat.succ_pos _) hspan
          obtain ⟨p'', hp, rfl⟩ := split_within hb (by rwa [List.length_cons, ← ht])
          have hpre : (pre ++ c :: x).length = pre.length + t.length := by
            rw [List.length_append, List.length_cons, ht]
          have hsum : pre.length + (c :: x ++ p'').length = (pre ++ c :: x).length + p''.length := by
            simp only [List.length_append, List.length_cons]
            omega
          rw [hp] at hclosed hlater ⊢
          rw [hsum] at hclosed
          rw [← hpre, hsum] at hlater
          obtain ⟨hhere, hbehind⟩ := forall_tokenStarts
            (P := fun i z => i < (pre ++ c :: x).length + p''.length → ClosesLiteral z) h ht hclosed
          have hclose : ClosesLiteral (c :: (x ++ (p'' ++ (l ++ s)))) := by
            apply hhere
            have := h.pos
            omega
          have hy : p'' ++ (l ++ s) ≠ [] := by
            cases ho <;> simp
          have h₂ := h.follows (ho.follows_of_span hlater) hy hclose.ne_none ht
          rw [blank_token h ht, List.append_assoc, List.cons_append, blank_token h₂ ht]
          congr 1
          exact ih (pre ++ c :: x) p'' rfl hlater hbehind

/-- Where the literals before a literal are closed, the normal form and the fingerprint of a text do
not depend on that literal, only on how it opens. -/
theorem normalize_substitute {p l s l₂ : String}
    (hspan : Location.span (utf8 p).length (utf8 l).length ∈ scan (p ++ l ++ s))
    (hclosed : ∀ i ∈ tokenStarts (p ++ l ++ s), i < (utf8 p).length →
      opensLiteral ((utf8 (p ++ l ++ s)).drop i) = true →
      (literalLengthAt? (p ++ l ++ s) i).isSome = true)
    (hopening : SameOpening (utf8 l) (utf8 l₂))
    (hlength : literalLengthAt? (l₂ ++ s) 0 = some (utf8 l₂).length) :
    normalize (p ++ l ++ s) (scan (p ++ l ++ s)) =
        normalize (p ++ l₂ ++ s) (scan (p ++ l₂ ++ s)) ∧
      (Source.new (p ++ l ++ s) (scan (p ++ l ++ s))).fingerprint? =
        (Source.new (p ++ l₂ ++ s) (scan (p ++ l₂ ++ s))).fingerprint? := by
  have hbytes : ∀ m, utf8 (p ++ m ++ s) = utf8 p ++ (utf8 m ++ utf8 s) := by
    intro m
    rw [utf8_append, utf8_append, List.append_assoc]
  have hblank := blank_substitute hopening (s := utf8 s)
    (by simpa [literalLengthAt?] using hlength) false (utf8 (p ++ l ++ s)) [] (utf8 p) (hbytes l)
    (by simpa [scan] using hspan)
    (by simpa [tokenStarts, ClosesLiteral, literalLengthAt?] using hclosed)
  have hnormal : normalize (p ++ l ++ s) (scan (p ++ l ++ s)) =
      normalize (p ++ l₂ ++ s) (scan (p ++ l₂ ++ s)) := by
    apply utf8_injective
    rw [utf8_normalize, utf8_normalize, hblank, hbytes l₂]
  exact ⟨hnormal, by rw [fingerprint_new, fingerprint_new, hnormal]⟩

theorem normalize_substitute_number :
    Location.span 5 1 ∈ scan ("('a'," ++ "1" ++ ")") ∧
      normalize ("('a'," ++ "1" ++ ")") (scan ("('a'," ++ "1" ++ ")")) =
        normalize ("('a'," ++ "25" ++ ")") (scan ("('a'," ++ "25" ++ ")")) := by
  have hspan : Location.span (utf8 "('a',").length (utf8 "1").length ∈
      scan ("('a'," ++ "1" ++ ")") := by decide +kernel
  have hdigits : SameOpening (utf8 "1") (utf8 "25") :=
    .digit (c := 0x31) (d := 0x32) (x := []) (y := [0x35]) rfl rfl
  exact ⟨hspan, (normalize_substitute hspan (by decide +kernel) hdigits (by decide +kernel)).1⟩

end PlanFeedback.Query
