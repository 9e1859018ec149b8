import Mathlib.Data.List.TakeWhile
import PlanFeedback.Query.Normal
import PlanFeedback.Query.Scan

/-!
How far a literal token reaches. A token is found by looking at what follows it as well; here it is
shown how little of that is looked at, so that what follows may be exchanged.
-/
namespace PlanFeedback.Query

open Text

/-- A placeholder, a blank, or one of `(`, `,`, `/` and `=`: no token goes on with it. -/
def isInert (b : UInt8) : Bool :=
  b == placeholder || b == 0x28 || b == 0x2C || b == 0x2F || b == 0x3D || isSpace b

/-- Whatever a token that ends before `y'` notices in `y'`, it notices in `y` too. -/
structure Follows (y y' : Bytes) : Prop where
  head : ∀ b' ∈ y'.head?, isInert b' = true ∨ ∃ b ∈ y.head?, b = b' ∨ (isDigit b ∧ isDigit b')
  number : startsNumber y' → startsNumber y
  exponent : exponentLength y' ≠ 0 → exponentLength y ≠ 0
  unicode : startsUnicodeQuote y' → startsUnicodeQuote y

theorem Follows.refl (y : Bytes) : Follows y y :=
  ⟨fun b hb => Or.inr ⟨b, hb, Or.inl rfl⟩, id, id, id⟩

/-- A mark that is neither inert nor a digit is seen in both. -/
theorem Follows.head_eq {y y' : Bytes} (h : Follows y y') {b : UInt8} (hp : isInert b = false)
    (hd : isDigit b = false) (hb : y'.head? = some b) : y.head? = some b := by
  rcases h.head b hb with hb' | ⟨c, hc, rfl | ⟨-, hb'⟩⟩
  · rw [hp] at hb'
    cases hb'
  · exact hc
  · rw [hd] at hb'
    cases hb'

/-- A class of bytes that holds all digits or none, and no inert byte, is seen in both. -/
theorem Follows.head_class {y y' : Bytes} (h : Follows y y') (p : UInt8 → Bool)
    (hp : ∀ b, isInert b = true → p b = false) (hd : ∀ b c, isDigit b → isDigit c → p c → p b)
    (hb : ∃ b ∈ y'.head?, p b) : ∃ b ∈ y.head?, p b := by
  obtain ⟨c, hc, hpc⟩ := hb
  rcases h.head c hc with hc' | ⟨b, hb, rfl | ⟨hdb, hdc⟩⟩
  · rw [hp c hc'] at hpc
    cases hpc
  · exact ⟨b, hb, hpc⟩
  · exact ⟨b, hb, hd b c hdb hdc hpc⟩

theorem isSpace_iff (c : UInt8) : isSpace c = true ↔
    c = 0x20 ∨ c = 0x09 ∨ c = 0x0A ∨ c = 0x0C ∨ c = 0x0D := by
  simp only [isSpace, Bool.or_eq_true, beq_iff_eq, or_assoc]

theorem isInert_iff (c : UInt8) : isInert c = true ↔ c = 0x3F ∨ c = 0x28 ∨ c = 0x2C ∨ c = 0x2F ∨
    c = 0x3D ∨ c = 0x20 ∨ c = 0x09 ∨ c = 0x0A ∨ c = 0x0C ∨ c = 0x0D := by
  simp only [isInert, Bool.or_eq_true, beq_iff_eq, isSpace_iff, placeholder, or_assoc]

theorem isInert_of_space {c : UInt8} (h : isSpace c = true) : isInert c = true := by
  rw [isInert, h, Bool.or_true]

theorem isInert_not_word (c : UInt8) (h : isInert c = true) : isWordByte c = false := by
  rcases (isInert_iff c).1 h with
    rfl | rfl | rfl | rfl | rfl | rfl | rfl | rfl | rfl | rfl <;> rfl

theorem isInert_not_digit (c : UInt8) (h : isInert c = true) : isDigit c = false := by
  rcases (isInert_iff c).1 h with
    rfl | rfl | rfl | rfl | rfl | rfl | rfl | rfl | rfl | rfl <;> rfl

theorem startsDigit_iff (y : Bytes) : startsDigit y = true ↔ ∃ b ∈ y.head?, isDigit b := by
  cases y with
  | nil => simp [startsDigit]
  | cons b y => simp [startsDigit]

theorem startsQuote_iff (y : Bytes) : startsQuote y = true ↔ y.head? = some 0x27 := by
  cases y with
  | nil => simp [startsQuote]
  | cons b y => simp [startsQuote]

theorem Follows.digit {y y' : Bytes} (h : Follows y y') (hd : startsDigit y') : startsDigit y := by
  rw [startsDigit_iff] at hd ⊢
  exact h.head_class isDigit isInert_not_digit (fun _ _ hb _ _ => hb) hd

theorem Follows.quote {y y' : Bytes} (h : Follows y y') (hq : startsQuote y') : startsQuote y := by
  rw [startsQuote_iff] at hq ⊢
  exact h.head_eq (by decide) rfl hq

theorem Follows.digit_append {y y' : Bytes} (h : Follows y y') (x : Bytes)
    (hd : startsDigit (x ++ y')) : startsDigit (x ++ y) := by
  cases x with
  | nil => exact h.digit hd
  | cons c x => exact hd

theorem Follows.quote_append {y y' : Bytes} (h : Follows y y') (x : Bytes)
    (hq : startsQuote (x ++ y')) : startsQuote (x ++ y) := by
  cases x with
  | nil => exact h.quote hq
  | cons c x => exact hq

theorem Follows.number_append {y y' : Bytes} (h : Follows y y') (x : Bytes)
    (hn : startsNumber (x ++ y')) : startsNumber (x ++ y) := by
  cases x with
  | nil => exact h.number hn
  | cons c x =>
      simp only [List.cons_append, startsNumber, Bool.or_eq_true, Bool.and_eq_true] at hn ⊢
      exact hn.imp_right (And.imp_right (h.digit_append x))

theorem Follows.unicode_append {y y' : Bytes} (h : Follows y y') (x : Bytes)
    (hu : startsUnicodeQuote (x ++ y')) : startsUnicodeQuote (x ++ y) := by
  cases x with
  | nil => exact h.unicode hu
  | cons c x =>
      simp only [List.cons_append, startsUnicodeQuote, Bool.and_eq_true] at hu ⊢
      exact hu.imp_right (h.quote_append x)

/-! Numbers. -/

theorem digitsLength_cons (c : UInt8) (b : Bytes) :
    digitsLength (c :: b) = if isDigit c then digitsLength b + 1 else 0 := by
  by_cases hc : isDigit c <;> simp [digitsLength, hc]

theorem digitsLength_eq_zero (b : Bytes) : digitsLength b = 0 ↔ startsDigit b = false := by
  cases b with
  | nil => simp [digitsLength, startsDigit]
  | cons c b => by_cases hc : isDigit c <;> simp [digitsLength_cons, startsDigit, hc]

theorem digitsLength_le (b : Bytes) : digitsLength b ≤ b.length :=
  (List.takeWhile_prefix isDigit).length_le

theorem fractionLength_le (b : Bytes) : fractionLength b ≤ b.length := by
  cases b with
  | nil => exact Nat.le_refl 0
  | cons c b =>
      have := digitsLength_le b
      simp only [fractionLength, List.length_cons]
      split <;> omega

theorem signLength_le (b : Bytes) : signLength b ≤ b.length := by
  cases b with
  | nil => exact Nat.le_refl 0
  | cons c b =>
      simp only [signLength, List.length_cons]
      split <;> omega

theorem exponentLength_le (b : Bytes) : exponentLength b ≤ b.length := by
  cases b with
  | nil => exact Nat.le_refl 0
  | cons c b =>
      have hs := signLength_le b
      have hd := digitsLength_le (b.drop (signLength b))
      rw [List.length_drop] at hd
      simp only [exponentLength, List.length_cons]
      split <;> omega

theorem exponentLength_ne_zero (c : UInt8) (rest : Bytes) : exponentLength (c :: rest) ≠ 0 ↔
    (c = 0x65 ∨ c = 0x45) ∧ startsDigit (rest.drop (signLength rest)) = true := by
  simp only [exponentLength]
  split
  · rename_i h
    exact ⟨fun _ => h, fun _ => by omega⟩
  · rename_i h
    exact ⟨fun hne => absurd rfl hne, fun h' => absurd h' h⟩

theorem numberLength_le (b : Bytes) : numberLength b ≤ b.length := by
  have hw := digitsLength_le b
  have hf := fractionLength_le (b.drop (digitsLength b))
  have he := exponentLength_le
    (b.drop (digitsLength b + fractionLength (b.drop (digitsLength b))))
  rw [List.length_drop] at hf he
  simp only [numberLength]
  omega

theorem numberLength_pos {b : Bytes} (h : startsNumber b) : 0 < numberLength b := by
  cases b with
  | nil => cases h
  | cons c b =>
      by_cases hd : isDigit c
      · simp only [numberLength, digitsLength_cons, hd, if_true]
        omega
      · obtain rfl : c = 0x2E := by
          simp only [startsNumber, hd, Bool.false_or, Bool.and_eq_true, beq_iff_eq] at h
          exact h.1
        have h0 : digitsLength (0x2E :: b) = 0 := rfl
        simp only [numberLength, h0, List.drop_zero, fractionLength, if_true]
        omega

theorem digitsLength_follows {x y y' : Bytes} {k : Nat} (hk : k ≤ x.length) (hf : Follows y y')
    (h : digitsLength (x ++ y) = k) : digitsLength (x ++ y') = k := by
  induction x generalizing k with
  | nil =>
      obtain rfl := Nat.le_zero.1 hk
      rw [List.nil_append, digitsLength_eq_zero, Bool.eq_false_iff] at h ⊢
      exact mt hf.digit h
  | cons c x ih =>
      rw [List.cons_append, digitsLength_cons] at h ⊢
      split
      · rename_i hc
        rw [if_pos hc] at h
        obtain rfl := h
        rw [ih (by simpa using hk) rfl]
      · rename_i hc
        rwa [if_neg hc] at h

theorem fractionLength_follows {x y y' : Bytes} {k : Nat} (hk : k ≤ x.length) (hf : Follows y y')
    (h : fractionLength (x ++ y) = k) : fractionLength (x ++ y') = k := by
  cases x with
  | nil =>
      obtain rfl := Nat.le_zero.1 hk
      rw [List.nil_append] at h ⊢
      cases y' with
      | nil => rfl
      | cons c y' =>
          simp only [fractionLength]
          split
          · rename_i hc
            subst hc
            have hy := hf.head_eq (by decide) rfl (List.head?_cons (a := 0x2E) (l := y'))
            cases y with
            | nil => cases hy
            | cons b y =>
                obtain rfl := Option.some.inj hy
                simp [fractionLength] at h
          · rfl
  | cons c x =>
      simp only [List.cons_append, fractionLength] at h ⊢
      split
      · rename_i hc
        rw [if_pos hc] at h
        subst h
        rw [digitsLength_follows (x := x) (y := y) _ hf rfl]
        rw [List.length_cons] at hk
        omega
      · rename_i hc
        rwa [if_neg hc] at h

theorem exponentLength_follows {x y y' : Bytes} (hf : Follows y y')
    (h : exponentLength (x ++ y) = x.length) : exponentLength (x ++ y') = x.length := by
  match x with
  | [] =>
      by_contra hne
      exact hf.exponent hne h
  | [c] =>
      exfalso
      simp only [List.cons_append, List.nil_append, exponentLength] at h
      split at h
      · rename_i hc
        have hd : digitsLength (y.drop (signLength y)) ≠ 0 := by
          rw [Ne, digitsLength_eq_zero, hc.2]
          decide
        simp only [List.length_cons, List.length_nil] at h
        omega
      · simp at h
  | c :: d :: x =>
      have hs : signLength (d :: x ++ y') = signLength (d :: x ++ y) := rfl
      have hle : signLength (d :: x ++ y) ≤ (d :: x).length := by
        simp only [List.cons_append, signLength, List.length_cons]
        split <;> omega
      rw [List.cons_append] at h ⊢
      simp only [exponentLength, hs] at h ⊢
      rw [List.drop_append_of_le_length hle] at h ⊢
      split at h
      · rename_i hc
        have hd := digitsLength_follows (k := digitsLength ((d :: x).drop
          (signLength (d :: x ++ y)) ++ y)) (by
            simp only [List.length_cons, List.length_drop] at h ⊢
            omega) hf rfl
        have hn : digitsLength ((d :: x).drop (signLength (d :: x ++ y)) ++ y') ≠ 0 := by
          rw [hd, Ne, digitsLength_eq_zero, hc.2]
          decide
        have hd' : startsDigit ((d :: x).drop (signLength (d :: x ++ y)) ++ y') = true := by
          rwa [Ne, digitsLength_eq_zero, Bool.not_eq_false] at hn
        rw [if_pos ⟨hc.1, hd'⟩, hd, h]
      · simp at h

/-- A number ends where it did when something follows that does not go on with it. -/
theorem numberLength_follows {x y y' : Bytes} (hf : Follows y y')
    (h : numberLength (x ++ y) = x.length) : numberLength (x ++ y') = x.length := by
  have hw : digitsLength (x ++ y) ≤ x.length := by
    simp only [numberLength] at h
    omega
  have hfr : digitsLength (x ++ y) + fractionLength ((x ++ y).drop (digitsLength (x ++ y))) ≤
      x.length := by
    simp only [numberLength] at h
    omega
  have hw' := digitsLength_follows hw hf rfl
  rw [List.drop_append_of_le_length hw] at hfr
  have hf' := fractionLength_follows (x := x.drop (digitsLength (x ++ y)))
    (by rw [List.length_drop]; omega) hf rfl
  have he' := exponentLength_follows (x := x.drop (digitsLength (x ++ y) +
    fractionLength (x.drop (digitsLength (x ++ y)) ++ y))) (y := y) hf (by
      simp only [numberLength] at h
      rw [List.drop_append_of_le_length hw, List.drop_append_of_le_length hfr] at h
      rw [List.length_drop]
      omega)
  simp only [numberLength, hw']
  rw [List.drop_append_of_le_length hw, hf', List.drop_append_of_le_length hfr, he',
    List.length_drop]
  omega

theorem startsNumber_follows {x y y' : Bytes} (h : startsNumber (x ++ y))
    (hx : numberLength (x ++ y) = x.length) : startsNumber (x ++ y') := by
  match x with
  | [] =>
      have := numberLength_pos h
      rw [hx] at this
      cases this
  | [c] =>
      by_cases hd : isDigit c
      · simp [startsNumber, hd]
      · simp only [List.cons_append, List.nil_append, startsNumber, hd, Bool.false_or,
          Bool.and_eq_true, beq_iff_eq] at h
        obtain ⟨rfl, hy⟩ := h
        have hn : digitsLength y ≠ 0 := by
          rw [Ne, digitsLength_eq_zero, hy]
          decide
        simp [numberLength, digitsLength_cons, isDigit, fractionLength] at hx
        omega
  | c :: d :: x => simpa only [List.cons_append, startsNumber, startsDigit] using h

/-! Inert bytes. -/

/-- The bytes are at their end or go on with an inert byte. -/
def StartsInert (z : Bytes) : Prop := ∀ b ∈ z.head?, isInert b = true

namespace StartsInert

variable {z : Bytes}

theorem nil : StartsInert [] := by
  intro b hb
  cases hb

theorem cons {d : UInt8} (hd : isInert d = true) (z : Bytes) : StartsInert (d :: z) := by
  intro b hb
  obtain rfl := Option.some.inj hb
  exact hd

/-- Neither a number nor a quote begins at an inert byte, and no number goes on there. -/
theorem opens_nothing (h : StartsInert z) :
    startsDigit z = false ∧ startsNumber z = false ∧ startsQuote z = false ∧
      startsUnicodeQuote z = false ∧ signLength z = 0 ∧ exponentLength z = 0 := by
  cases z with
  | nil => exact ⟨rfl, rfl, rfl, rfl, rfl, rfl⟩
  | cons b z =>
      rcases (isInert_iff b).1 (h b rfl) with
        rfl | rfl | rfl | rfl | rfl | rfl | rfl | rfl | rfl | rfl <;>
          exact ⟨rfl, rfl, rfl, rfl, rfl, by simp [exponentLength]⟩

/-- A token that ends before an inert byte, or where the text ends, would have ended there before
anything else as well. -/
theorem follows (h : StartsInert z) (q y : Bytes) : Follows (q ++ y) (q ++ z) := by
  obtain ⟨hdigit, hnumber, hquote, hunicode, hsign, hexponent⟩ := h.opens_nothing
  match q with
  | [] =>
      constructor
      · intro b hb
        exact Or.inl (h b hb)
      · intro hn
        rw [List.nil_append, hnumber] at hn
        cases hn
      · intro he
        exact absurd hexponent he
      · intro hu
        rw [List.nil_append, hunicode] at hu
        cases hu
  | [c] =>
      constructor
      · intro b hb
        exact Or.inr ⟨c, rfl, Or.inl (Option.some.inj hb)⟩
      · intro hn
        simp only [List.singleton_append, startsNumber, hdigit, Bool.and_false,
          Bool.or_false] at hn ⊢
        rw [hn, Bool.true_or]
      · intro he
        rw [List.singleton_append, exponentLength_ne_zero, hsign, List.drop_zero, hdigit] at he
        cases he.2
      · intro hu
        rw [List.singleton_append, startsUnicodeQuote, hquote, Bool.and_false] at hu
        cases hu
  | c :: d :: q =>
      constructor
      · intro b hb
        exact Or.inr ⟨c, rfl, Or.inl (Option.some.inj hb)⟩
      · exact id
      · intro he
        simp only [List.cons_append, exponentLength_ne_zero, signLength] at he ⊢
        apply he.imp_right
        intro hd
        split
        · rename_i hs
          rw [if_pos hs] at hd
          cases q with
          | nil =>
              rw [List.drop_succ_cons, List.drop_zero, List.nil_append, hdigit] at hd
              cases hd
          | cons e q => exact hd
        · rename_i hs
          rw [if_neg hs] at hd
          exact hd
      · exact id

end StartsInert

/-! Quoted strings. -/

/-- What may stand between the quotes of a string: a quote only in pairs and, where a backslash
hides the byte after it, no lone backslash. -/
inductive QuotedBody (escapes : Bool) : Bytes → Prop where
  | nil : QuotedBody escapes []
  | hidden (c : UInt8) {b : Bytes} :
      escapes = true → QuotedBody escapes b → QuotedBody escapes (0x5C :: c :: b)
  | doubled {b : Bytes} : QuotedBody escapes b → QuotedBody escapes (0x27 :: 0x27 :: b)
  | plain {c : UInt8} {b : Bytes} :
      c ≠ 0x27 → (escapes && c == 0x5C) = false → QuotedBody escapes b → QuotedBody escapes (c :: b)

theorem closingLength?_hidden (c : UInt8) (b : Bytes) :
    closingLength? true (0x5C :: c :: b) = (closingLength? true b).map (· + 2) := by
  simp [closingLength?]

theorem closingLength?_doubled (escapes : Bool) (b : Bytes) :
    closingLength? escapes (0x27 :: 0x27 :: b) = (closingLength? escapes b).map (· + 2) := by
  simp [closingLength?]

theorem closingLength?_last (escapes : Bool) {y : Bytes} (hy : startsQuote y = false) :
    closingLength? escapes (0x27 :: y) = some 1 := by
  cases y with
  | nil => simp [closingLength?]
  | cons q y =>
      have hq : q ≠ 0x27 := by simpa [startsQuote] using hy
      simp [closingLength?, hq]

theorem closingLength?_plain {escapes : Bool} {c : UInt8} (b : Bytes) (hc : c ≠ 0x27)
    (he : (escapes && c == 0x5C) = false) :
    closingLength? escapes (c :: b) = (closingLength? escapes b).map (· + 1) := by
  rw [closingLength?.eq_def]
  simp only [he, Bool.false_eq_true, if_false, beq_eq_false_iff_ne.2 hc]

theorem QuotedBody.closes {escapes : Bool} {body y : Bytes} (h : QuotedBody escapes body)
    (hy : startsQuote y = false) :
    closingLength? escapes (body ++ 0x27 :: y) = some (body.length + 1) := by
  induction h with
  | nil => exact closingLength?_last escapes hy
  | hidden c he _ ih =>
      subst he
      rw [List.cons_append, List.cons_append, closingLength?_hidden, ih]
      rfl
  | doubled _ ih =>
      rw [List.cons_append, List.cons_append, closingLength?_doubled, ih]
      rfl
  | plain hc he _ ih =>
      rw [List.cons_append, closingLength?_plain _ hc he, ih]
      rfl

theorem quotedBody_of_closing {escapes : Bool} {b : Bytes} {n : Nat}
    (h : closingLength? escapes b = some n) :
    ∃ body y, b = body ++ 0x27 :: y ∧ QuotedBody escapes body ∧ startsQuote y = false ∧
      n = body.length + 1 := by
  fun_induction closingLength? escapes b generalizing n with
  | case1 => cases h
  | case2 => cases h
  | case3 c hc d rest ih =>
      obtain ⟨m, hm, rfl⟩ := Option.map_eq_some_iff.1 h
      obtain ⟨body, y, rfl, hbody, hy, rfl⟩ := ih hm
      simp only [Bool.and_eq_true, beq_iff_eq] at hc
      obtain ⟨he, rfl⟩ := hc
      exact ⟨_, y, rfl, .hidden d he hbody, hy, rfl⟩
  | case4 c hc hq =>
      obtain rfl := Option.some.inj h
      exact ⟨[], [], by simpa using hq, .nil, rfl, rfl⟩
  | case5 c hc hq rest ih =>
      obtain ⟨m, hm, rfl⟩ := Option.map_eq_some_iff.1 h
      obtain ⟨body, y, rfl, hbody, hy, rfl⟩ := ih hm
      obtain rfl : c = 0x27 := by simpa using hq
      exact ⟨_, y, rfl, .doubled hbody, hy, rfl⟩
  | case6 c hc hq q rest hne =>
      obtain rfl := Option.some.inj h
      obtain rfl : c = 0x27 := by simpa using hq
      exact ⟨[], q :: rest, rfl, .nil, by simpa [startsQuote] using hne, rfl⟩
  | case7 c rest hc hq ih =>
      obtain ⟨m, hm, rfl⟩ := Option.map_eq_some_iff.1 h
      obtain ⟨body, y, rfl, hbody, hy, rfl⟩ := ih hm
      exact ⟨_, y, rfl, .plain (by simpa using hq) (by simpa using hc) hbody, hy, rfl⟩

theorem closingLength?_eq_some_iff {escapes : Bool} {b : Bytes} {n : Nat} :
    closingLength? escapes b = some n ↔
      ∃ body y, b = body ++ 0x27 :: y ∧ QuotedBody escapes body ∧ startsQuote y = false ∧
        n = body.length + 1 := by
  constructor
  · exact quotedBody_of_closing
  · rintro ⟨body, y, rfl, hbody, hy, rfl⟩
    exact hbody.closes hy

theorem closingLength?_le {escapes : Bool} {b : Bytes} {n : Nat}
    (h : closingLength? escapes b = some n) : n ≤ b.length := by
  obtain ⟨body, y, rfl, -, -, rfl⟩ := closingLength?_eq_some_iff.1 h
  simp only [List.length_append, List.length_cons]
  omega

theorem closingLength?_pos {escapes : Bool} {b : Bytes} {n : Nat}
    (h : closingLength? escapes b = some n) : 0 < n := by
  obtain ⟨body, y, -, -, -, rfl⟩ := closingLength?_eq_some_iff.1 h
  exact Nat.succ_pos _

theorem closingLength?_follows {escapes : Bool} {x y y' : Bytes} (hf : Follows y y')
    (h : closingLength? escapes (x ++ y) = some x.length) :
    closingLength? escapes (x ++ y') = some x.length := by
  obtain ⟨body, z, hb, hbody, hz, hx⟩ := closingLength?_eq_some_iff.1 h
  have hlen : x.length = (body ++ [0x27]).length := by simpa using hx
  rw [← List.singleton_append, ← List.append_assoc] at hb
  obtain ⟨rfl, rfl⟩ := List.append_inj hb hlen
  rw [List.append_assoc, List.singleton_append, hlen, List.length_append]
  refine hbody.closes ?_
  rw [Bool.eq_false_iff] at hz ⊢
  exact mt hf.quote hz

/-! Dollar quotes. -/

theorem isPrefixOf_append {pattern b y : Bytes} (h : pattern.length ≤ b.length) :
    pattern.isPrefixOf (b ++ y) = pattern.isPrefixOf b := by
  rw [Bool.eq_iff_iff, List.isPrefixOf_iff_prefix, List.isPrefixOf_iff_prefix]
  exact ⟨fun hp => List.prefix_of_prefix_length_le hp (List.prefix_append b y) h,
    fun hp => hp.trans (List.prefix_append b y)⟩

theorem split_of_offsetOf {pattern b : Bytes} {n : Nat} (h : offsetOf? pattern b = some n) :
    ∃ z y, b = z ++ pattern ++ y ∧ z.length = n := by
  induction b generalizing n with
  | nil =>
      rw [offsetOf?] at h
      split at h
      · rename_i hp
        obtain rfl := List.isEmpty_iff.1 hp
        exact ⟨[], [], rfl, by simpa using h⟩
      · cases h
  | cons c b ih =>
      rw [offsetOf?] at h
      split at h
      · rename_i hp
        obtain ⟨y, hy⟩ := List.isPrefixOf_iff_prefix.1 hp
        exact ⟨[], y, by simp [hy], by simpa using h⟩
      · obtain ⟨m, hm, rfl⟩ := Option.map_eq_some_iff.1 h
        obtain ⟨z, y, rfl, rfl⟩ := ih hm
        exact ⟨c :: z, y, rfl, rfl⟩

/-- A pattern is found no later than any of its occurrences. -/
theorem offsetOf?_split (pattern z y : Bytes) :
    ∃ n, offsetOf? pattern (z ++ (pattern ++ y)) = some n ∧ n ≤ z.length := by
  induction z with
  | nil =>
      refine ⟨0, ?_, Nat.le_refl 0⟩
      rw [List.nil_append]
      cases pattern with
      | nil => cases y <;> simp [offsetOf?]
      | cons c pattern => simp [offsetOf?]
  | cons c z ih =>
      obtain ⟨n, hn, hle⟩ := ih
      rw [List.cons_append, offsetOf?]
      split
      · exact ⟨0, rfl, Nat.zero_le _⟩
      · exact ⟨n + 1, by rw [hn, Option.map_some], Nat.succ_le_succ hle⟩

/-- What stands behind the first occurrence of a pattern has no part in finding it. -/
theorem offsetOf?_exchange {pattern z y y' : Bytes}
    (h : offsetOf? pattern (z ++ pattern ++ y) = some z.length) :
    offsetOf? pattern (z ++ pattern ++ y') = some z.length := by
  induction z with
  | nil =>
      rw [List.nil_append]
      cases pattern with
      | nil => cases y' <;> simp [offsetOf?]
      | cons c pattern => simp [offsetOf?]
  | cons c z ih =>
      have hle : pattern.length ≤ (c :: (z ++ pattern)).length := by simp; omega
      rw [List.cons_append, List.cons_append, offsetOf?, ← List.cons_append,
        isPrefixOf_append hle] at h ⊢
      split at h
      · simp at h
      · rename_i hp
        rw [if_neg hp]
        obtain ⟨m, hm, hmz⟩ := Option.map_eq_some_iff.1 h
        obtain rfl : m = z.length := by simpa using hmz
        rw [ih hm]
        rfl

theorem offsetOf?_le {pattern b : Bytes} {n : Nat} (h : offsetOf? pattern b = some n) :
    n + pattern.length ≤ b.length := by
  obtain ⟨z, y, rfl, rfl⟩ := split_of_offsetOf h
  simp only [List.length_append]
  omega

theorem takeWhile_append_stop {p : UInt8 → Bool} {tag : Bytes} {c : UInt8} (y : Bytes)
    (ht : ∀ b ∈ tag, p b = true) (hc : p c = false) : (tag ++ c :: y).takeWhile p = tag := by
  rw [List.takeWhile_append_of_pos ht, List.takeWhile_cons, hc]
  simp

theorem dollarTag?_eq_some {b tag : Bytes} (h : dollarTag? b = some tag) :
    ∃ rest, b = tag ++ 0x24 :: rest ∧ (∀ t ∈ tag, isTagByte t = true) ∧ startsDigit tag = false := by
  rw [dollarTag?] at h
  have hb := List.prefix_iff_eq_append.1 (List.takeWhile_prefix isTagByte (l := b))
  split at h
  · cases h
  · rename_i c rest hdrop
    split at h
    · rename_i hc
      obtain rfl := Option.some.inj h
      rw [hdrop, hc.1] at hb
      exact ⟨rest, hb.symm, fun t ht => List.mem_takeWhile_imp ht, by simpa using hc.2⟩
    · cases h

theorem dollarTag?_append {tag : Bytes} (y : Bytes) (ht : ∀ t ∈ tag, isTagByte t = true)
    (hd : startsDigit tag = false) : dollarTag? (tag ++ 0x24 :: y) = some tag := by
  simp only [dollarTag?, takeWhile_append_stop y ht (c := 0x24) rfl, List.drop_left, hd]
  rfl

/-- A dollar quote is its opening mark, a body without that mark, and the mark again. -/
theorem dollarQuoted_split {b : Bytes} {n : Nat} (h : dollarQuotedLength? b = some n) :
    ∃ tag body y, b = tag ++ 0x24 :: (body ++ (0x24 :: tag ++ [0x24]) ++ y) ∧
      (∀ t ∈ tag, isTagByte t = true) ∧ startsDigit tag = false ∧
      offsetOf? (0x24 :: tag ++ [0x24]) (body ++ (0x24 :: tag ++ [0x24]) ++ y) =
        some body.length ∧ n = 2 * (tag.length + 2) + body.length := by
  simp only [dollarQuotedLength?, Option.bind_eq_bind, Option.bind_eq_some_iff] at h
  obtain ⟨tag, htag, close, hclose, hn⟩ := h
  obtain rfl := Option.some.inj hn
  obtain ⟨rest, rfl, ht, hd⟩ := dollarTag?_eq_some htag
  have hdrop : (tag ++ 0x24 :: rest).drop (tag.length + 1) = rest := by
    rw [← List.singleton_append, ← List.append_assoc, List.drop_left' (by simp)]
  rw [hdrop] at hclose
  obtain ⟨body, y, rfl, rfl⟩ := split_of_offsetOf hclose
  exact ⟨tag, body, y, rfl, ht, hd, hclose, rfl⟩

theorem dollarQuotedLength?_append {tag body y : Bytes} (ht : ∀ t ∈ tag, isTagByte t = true)
    (hd : startsDigit tag = false)
    (hbody : offsetOf? (0x24 :: tag ++ [0x24]) (body ++ (0x24 :: tag ++ [0x24]) ++ y) =
      some body.length) :
    dollarQuotedLength? (tag ++ 0x24 :: (body ++ (0x24 :: tag ++ [0x24]) ++ y)) =
      some (2 * (tag.length + 2) + body.length) := by
  have hdrop : ∀ z, (tag ++ 0x24 :: z).drop (tag.length + 1) = z := by
    intro z
    rw [← List.singleton_append, ← List.append_assoc, List.drop_left' (by simp)]
  simp only [dollarQuotedLength?, dollarTag?_append _ ht hd, Option.bind_eq_bind,
    Option.bind_some, hdrop, hbody]
  rfl

/-- Behind the opening mark of a dollar quote any occurrence of the mark closes one. -/
theorem dollarQuotedLength?_of_mark {tag : Bytes} (ht : ∀ t ∈ tag, isTagByte t = true)
    (hd : startsDigit tag = false) (body y : Bytes) :
    dollarQuotedLength? (tag ++ 0x24 :: (body ++ (0x24 :: tag ++ [0x24] ++ y))) ≠ none := by
  obtain ⟨close, hclose, -⟩ := offsetOf?_split (0x24 :: tag ++ [0x24]) body y
  have hdrop : ∀ z, (tag ++ 0x24 :: z).drop (tag.length + 1) = z := by
    intro z
    rw [← List.singleton_append, ← List.append_assoc, List.drop_left' (by simp)]
  simp only [dollarQuotedLength?, dollarTag?_append _ ht hd, Option.bind_eq_bind,
    Option.bind_some, hdrop, hclose]
  nofun

theorem dollarQuotedLength?_le {b : Bytes} {n : Nat} (h : dollarQuotedLength? b = some n) :
    n ≤ b.length + 1 := by
  obtain ⟨tag, body, y, rfl, -, -, -, rfl⟩ := dollarQuoted_split h
  simp only [List.length_append, List.length_cons, List.length_nil]
  omega

theorem dollarQuotedLength?_exchange {x y y' : Bytes}
    (h : dollarQuotedLength? (x ++ y) = some (x.length + 1)) :
    dollarQuotedLength? (x ++ y') = some (x.length + 1) := by
  obtain ⟨tag, body, z, hb, ht, hd, hbody, hn⟩ := dollarQuoted_split h
  have hlen : x.length = (tag ++ 0x24 :: (body ++ (0x24 :: tag ++ [0x24]))).length := by
    simp only [List.length_append, List.length_cons, List.length_nil]
    omega
  have hb' : x ++ y = (tag ++ 0x24 :: (body ++ (0x24 :: tag ++ [0x24]))) ++ z := by
    rw [hb]
    simp only [List.append_assoc, List.cons_append]
  obtain ⟨rfl, rfl⟩ := List.append_inj hb' hlen
  rw [hn, List.append_assoc, List.cons_append]
  exact dollarQuotedLength?_append ht hd (offsetOf?_exchange hbody)

/-! Words. -/

theorem isWordStart_isWordByte {b : UInt8} (h : isWordStart b = true) : isWordByte b = true := by
  simp only [isWordByte, isTagByte, h, Bool.true_or]

theorem isWordByte_of_digit {b : UInt8} (h : isDigit b = true) : isWordByte b = true := by
  simp only [isWordByte, isTagByte, h, Bool.or_true, Bool.true_or]

theorem wordLength_cons (c : UInt8) (b : Bytes) :
    wordLength (c :: b) = if isWordByte c then wordLength b + 1 else 0 := by
  by_cases hc : isWordByte c <;> simp [wordLength, hc]

theorem wordLength_le (b : Bytes) : wordLength b ≤ b.length :=
  (List.takeWhile_prefix isWordByte).length_le

theorem wordLength_follows {x y y' : Bytes} (hf : Follows y y')
    (h : wordLength (x ++ y) = x.length) : wordLength (x ++ y') = x.length := by
  induction x with
  | nil =>
      rw [List.nil_append] at h ⊢
      cases y' with
      | nil => rfl
      | cons c y' =>
          by_contra hne
          have hc : isWordByte c = true := by
            by_contra hc
            exact hne (by rw [wordLength_cons, if_neg hc]; rfl)
          obtain ⟨b, hb, hwb⟩ := hf.head_class isWordByte isInert_not_word
            (fun _ _ hd _ _ => isWordByte_of_digit hd) ⟨c, rfl, hc⟩
          cases y with
          | nil => cases hb
          | cons d y =>
              obtain rfl := Option.some.inj hb
              rw [wordLength_cons, if_pos hwb] at h
              cases h
  | cons c x ih =>
      rw [List.cons_append, wordLength_cons] at h ⊢
      split at h
      · rename_i hc
        rw [if_pos hc, ih (by simpa using h), List.length_cons]
      · cases h

/-! Literal tokens. -/

/-- The ways in which a byte and what follows it can start a literal token of a given length. -/
inductive LiteralForm : UInt8 → Bytes → Nat → Prop where
  | quoted {rest : Bytes} {n : Nat} :
      closingLength? false rest = some n → LiteralForm 0x27 rest (n + 1)
  | marker {rest : Bytes} : startsDigit rest = true → LiteralForm 0x24 rest (1 + digitsLength rest)
  | dollar {rest : Bytes} {n : Nat} : startsDigit rest = false →
      dollarQuotedLength? rest = some n → LiteralForm 0x24 rest n
  | signed {c : UInt8} {rest : Bytes} : c = 0x2D ∨ c = 0x2B → startsNumber rest = true →
      LiteralForm c rest (1 + numberLength rest)
  | number {c : UInt8} {rest : Bytes} : startsNumber (c :: rest) = true →
      LiteralForm c rest (numberLength (c :: rest))
  | escape {c : UInt8} {rest : Bytes} {n : Nat} : isEscapeLetter c = true →
      closingLength? true rest = some n → LiteralForm c (0x27 :: rest) (n + 2)
  | string {c : UInt8} {rest : Bytes} {n : Nat} : isStringLetter c = true →
      closingLength? false rest = some n → LiteralForm c (0x27 :: rest) (n + 2)
  | unicode {c : UInt8} {rest : Bytes} {n : Nat} : isUnicodeLetter c = true →
      closingLength? false rest = some n → LiteralForm c (0x26 :: 0x27 :: rest) (n + 3)
  | word {c : UInt8} {rest : Bytes} : isWordStart c = true → isStringMark [c] rest = false →
      LiteralForm c rest (wordLength (c :: rest))

theorem isStringMark_singleton (c : UInt8) (rest : Bytes) : isStringMark [c] rest =
    (((isEscapeLetter c || isStringLetter c) && startsQuote rest) ||
      (isUnicodeLetter c && startsUnicodeQuote rest)) := rfl

theorem Follows.mark_append {y y' : Bytes} (h : Follows y y') (c : UInt8) (x : Bytes)
    (hm : isStringMark [c] (x ++ y') = true) : isStringMark [c] (x ++ y) = true := by
  simp only [isStringMark_singleton, Bool.or_eq_true, Bool.and_eq_true] at hm ⊢
  exact hm.imp (And.imp_right (h.quote_append x)) (And.imp_right (h.unicode_append x))

theorem startsQuote_eq_true {rest : Bytes} (h : startsQuote rest = true) :
    ∃ z, rest = 0x27 :: z := by
  cases rest with
  | nil => cases h
  | cons q z =>
      obtain rfl : q = 0x27 := by simpa [startsQuote] using h
      exact ⟨z, rfl⟩

theorem startsUnicodeQuote_eq_true {rest : Bytes} (h : startsUnicodeQuote rest = true) :
    ∃ z, rest = 0x26 :: 0x27 :: z := by
  cases rest with
  | nil => cases h
  | cons q z =>
      simp only [startsUnicodeQuote, Bool.and_eq_true, beq_iff_eq] at h
      obtain ⟨rfl, hz⟩ := h
      obtain ⟨w, rfl⟩ := startsQuote_eq_true hz
      exact ⟨w, rfl⟩

theorem literalForm_of_length {c : UInt8} {rest : Bytes} {n : Nat}
    (h : literalLength? (c :: rest) = some n) : LiteralForm c rest n := by
  simp only [literalLength?] at h
  split at h
  · rename_i hc
    subst hc
    obtain ⟨m, hm, rfl⟩ := Option.map_eq_some_iff.1 h
    exact .quoted hm
  split at h
  · rename_i hc
    subst hc
    split at h
    · rename_i hd
      obtain rfl := Option.some.inj h
      exact .marker hd
    · rename_i hd
      exact .dollar (by simpa using hd) h
  split at h
  · rename_i hc
    split at h
    · rename_i hn
      obtain rfl := Option.some.inj h
      exact .signed hc hn
    · cases h
  split at h
  · rename_i hn
    obtain rfl := Option.some.inj h
    exact .number hn
  split at h
  · rename_i hc
    obtain ⟨m, hm, rfl⟩ := Option.map_eq_some_iff.1 h
    obtain ⟨z, rfl⟩ := startsQuote_eq_true hc.2
    exact .escape hc.1 hm
  split at h
  · rename_i hc
    obtain ⟨m, hm, rfl⟩ := Option.map_eq_some_iff.1 h
    obtain ⟨z, rfl⟩ := startsQuote_eq_true hc.2
    exact .string hc.1 hm
  split at h
  · rename_i hc
    obtain ⟨m, hm, rfl⟩ := Option.map_eq_some_iff.1 h
    obtain ⟨z, rfl⟩ := startsUnicodeQuote_eq_true hc.2
    exact .unicode hc.1 hm
  split at h
  · rename_i he hs hu hw
    obtain rfl := Option.some.inj h
    refine .word hw ?_
    rw [isStringMark_singleton, Bool.eq_false_iff]
    simp only [Ne, Bool.or_eq_true, Bool.and_eq_true]
    rintro (⟨hc | hc, hq⟩ | hc)
    · exact he ⟨hc, hq⟩
    · exact hs ⟨hc, hq⟩
    · exact hu hc
  · cases h

/-- Bytes that start a word start none of the other literals. -/
theorem literalLength?_of_wordStart {c : UInt8} (rest : Bytes) (h : isWordStart c = true) :
    literalLength? (c :: rest) =
      if isEscapeLetter c ∧ startsQuote rest then (closingLength? true (rest.drop 1)).map (· + 2)
      else if isStringLetter c ∧ startsQuote rest then
        (closingLength? false (rest.drop 1)).map (· + 2)
      else if isUnicodeLetter c ∧ startsUnicodeQuote rest then
        (closingLength? false (rest.drop 2)).map (· + 3)
      else some (wordLength (c :: rest)) := by
  have hq : c ≠ 0x27 := by rintro rfl; cases h
  have hd : c ≠ 0x24 := by rintro rfl; cases h
  have hs : ¬ (c = 0x2D ∨ c = 0x2B) := by rintro (rfl | rfl) <;> cases h
  have hp : (c == 0x2E) = false := beq_eq_false_iff_ne.2 (by rintro rfl; cases h)
  have hdigit : isDigit c = false := by
    unfold isWordStart isLetter isLower isUpper at h
    unfold isDigit
    grind
  simp only [literalLength?, hq, hd, hs, startsNumber, hdigit, hp, h, Bool.false_or,
    Bool.false_and, Bool.false_eq_true, if_false, if_true]

theorem isEscapeLetter_iff (c : UInt8) : isEscapeLetter c = true ↔ c = 0x45 ∨ c = 0x65 := by
  unfold isEscapeLetter toLower isUpper
  grind

theorem isStringLetter_iff (c : UInt8) : isStringLetter c = true ↔
    c = 0x42 ∨ c = 0x62 ∨ c = 0x58 ∨ c = 0x78 ∨ c = 0x4E ∨ c = 0x6E := by
  unfold isStringLetter toLower isUpper
  grind

theorem isUnicodeLetter_iff (c : UInt8) : isUnicodeLetter c = true ↔ c = 0x55 ∨ c = 0x75 := by
  unfold isUnicodeLetter toLower isUpper
  grind

theorem isEscapeLetter_wordStart {c : UInt8} (h : isEscapeLetter c = true) :
    isWordStart c = true := by
  rcases (isEscapeLetter_iff c).1 h with rfl | rfl <;> rfl

theorem isStringLetter_wordStart {c : UInt8} (h : isStringLetter c = true) :
    isWordStart c = true ∧ isEscapeLetter c = false := by
  rcases (isStringLetter_iff c).1 h with rfl | rfl | rfl | rfl | rfl | rfl <;> exact ⟨rfl, rfl⟩

theorem isUnicodeLetter_wordStart {c : UInt8} (h : isUnicodeLetter c = true) :
    isWordStart c = true ∧ isEscapeLetter c = false ∧ isStringLetter c = false := by
  rcases (isUnicodeLetter_iff c).1 h with rfl | rfl <;> exact ⟨rfl, rfl, rfl⟩

theorem literalLength?_escape {c : UInt8} (hc : isEscapeLetter c = true) (rest : Bytes) :
    literalLength? (c :: 0x27 :: rest) = (closingLength? true rest).map (· + 2) := by
  rw [literalLength?_of_wordStart _ (isEscapeLetter_wordStart hc), if_pos ⟨hc, rfl⟩]
  rfl

theorem literalLength?_string {c : UInt8} (hc : isStringLetter c = true) (rest : Bytes) :
    literalLength? (c :: 0x27 :: rest) = (closingLength? false rest).map (· + 2) := by
  obtain ⟨hw, he⟩ := isStringLetter_wordStart hc
  rw [literalLength?_of_wordStart _ hw, if_neg (by simp [he]), if_pos ⟨hc, rfl⟩]
  rfl

theorem literalLength?_unicode {c : UInt8} (hc : isUnicodeLetter c = true) (rest : Bytes) :
    literalLength? (c :: 0x26 :: 0x27 :: rest) = (closingLength? false rest).map (· + 3) := by
  obtain ⟨hw, he, hs⟩ := isUnicodeLetter_wordStart hc
  rw [literalLength?_of_wordStart _ hw, if_neg (by simp [he]), if_neg (by simp [hs]),
    if_pos ⟨hc, rfl⟩]
  rfl

theorem LiteralForm.length {c : UInt8} {rest : Bytes} {n : Nat} (h : LiteralForm c rest n) :
    literalLength? (c :: rest) = some n := by
  cases h with
  | quoted h => simp [literalLength?, h]
  | marker h => simp [literalLength?, h]
  | dollar hd h => simp [literalLength?, hd, h]
  | signed hc h => rcases hc with rfl | rfl <;> simp [literalLength?, h]
  | number h =>
      have hc : c ≠ 0x27 ∧ c ≠ 0x24 ∧ ¬ (c = 0x2D ∨ c = 0x2B) := by
        refine ⟨?_, ?_, ?_⟩
        · rintro rfl; cases h
        · rintro rfl; cases h
        · rintro (rfl | rfl) <;> cases h
      simp only [literalLength?, hc, h, if_false, if_true]
  | escape hc h => rw [literalLength?_escape hc, h, Option.map_some]
  | string hc h => rw [literalLength?_string hc, h, Option.map_some]
  | unicode hc h => rw [literalLength?_unicode hc, h, Option.map_some]
  | word hw hm =>
      simp only [isStringMark_singleton, Bool.or_eq_false_iff, Bool.and_eq_false_iff] at hm
      obtain ⟨hm, hu⟩ := hm
      rw [literalLength?_of_wordStart _ hw, if_neg (by grind), if_neg (by grind), if_neg (by grind)]

theorem literalLength?_eq_some_iff {c : UInt8} {rest : Bytes} {n : Nat} :
    literalLength? (c :: rest) = some n ↔ LiteralForm c rest n :=
  ⟨literalForm_of_length, LiteralForm.length⟩

theorem LiteralForm.pos {c : UInt8} {rest : Bytes} {n : Nat} (h : LiteralForm c rest n) : 0 < n := by
  cases h with
  | quoted | escape | string | unicode => exact Nat.succ_pos _
  | marker | signed => omega
  | dollar _ h =>
      obtain ⟨tag, body, y, -, -, -, -, rfl⟩ := dollarQuoted_split h
      omega
  | number h => exact numberLength_pos h
  | word hw _ =>
      rw [wordLength_cons, if_pos (isWordStart_isWordByte hw)]
      omega

theorem LiteralForm.le {c : UInt8} {rest : Bytes} {n : Nat} (h : LiteralForm c rest n) :
    n ≤ rest.length + 1 := by
  cases h with
  | quoted h => exact Nat.succ_le_succ (closingLength?_le h)
  | marker =>
      have := digitsLength_le rest
      omega
  | dollar _ h => exact dollarQuotedLength?_le h
  | signed =>
      have := numberLength_le rest
      omega
  | number => exact numberLength_le (c :: rest)
  | escape _ h | string _ h | unicode _ h =>
      have := closingLength?_le h
      simp only [List.length_cons]
      omega
  | word => exact wordLength_le (c :: rest)

theorem startsDigit_of_digitsLength {b : Bytes} (h : digitsLength b ≠ 0) : startsDigit b = true := by
  rwa [Ne, digitsLength_eq_zero, Bool.not_eq_false] at h

/-- A literal token ends where it did when something follows that does not go on with it. -/
theorem LiteralForm.follows {c : UInt8} {x y y' : Bytes} (hf : Follows y y')
    (h : LiteralForm c (x ++ y) (x.length + 1)) : LiteralForm c (x ++ y') (x.length + 1) := by
  generalize hr : x ++ y = rest at h
  generalize hn : x.length + 1 = n at h
  cases h with
  | quoted h =>
      obtain rfl := Nat.succ.inj hn
      subst hr
      exact .quoted (closingLength?_follows hf h)
  | marker h =>
      subst hr
      have hx : digitsLength (x ++ y) = x.length := by omega
      have hx' := digitsLength_follows (Nat.le_refl _) hf hx
      have hne : digitsLength (x ++ y) ≠ 0 := by rw [Ne, digitsLength_eq_zero, h]; decide
      have hd : startsDigit (x ++ y') = true :=
        startsDigit_of_digitsLength (by rwa [hx', ← hx])
      rw [hx, ← hx']
      exact .marker hd
  | dollar hd h =>
      subst hr hn
      refine .dollar ?_ (dollarQuotedLength?_exchange h)
      rw [Bool.eq_false_iff] at hd ⊢
      exact mt (hf.digit_append x) hd
  | signed hc h =>
      subst hr
      have hx : numberLength (x ++ y) = x.length := by omega
      rw [hx, ← numberLength_follows hf hx]
      exact .signed hc (startsNumber_follows h hx)
  | number h =>
      subst hr
      have hx : numberLength (c :: x ++ y) = (c :: x).length := hn.symm
      rw [← hn, ← List.length_cons (a := c), ← numberLength_follows hf hx]
      exact .number (startsNumber_follows h hx)
  | @escape _ rest m hc h =>
      cases x with
      | nil => cases hn
      | cons q x =>
          simp only [List.cons_append, List.cons.injEq] at hr
          obtain ⟨rfl, rfl⟩ := hr
          obtain rfl : x.length = m := by simpa using hn
          exact .escape hc (closingLength?_follows hf h)
  | @string _ rest m hc h =>
      cases x with
      | nil => cases hn
      | cons q x =>
          simp only [List.cons_append, List.cons.injEq] at hr
          obtain ⟨rfl, rfl⟩ := hr
          obtain rfl : x.length = m := by simpa using hn
          exact .string hc (closingLength?_follows hf h)
  | @unicode _ rest m hc h =>
      rcases x with _ | ⟨a, _ | ⟨q, x⟩⟩
      · cases hn
      · simp at hn
      · simp only [List.cons_append, List.cons.injEq] at hr
        obtain ⟨rfl, rfl, rfl⟩ := hr
        obtain rfl : x.length = m := by simpa using hn
        exact .unicode hc (closingLength?_follows hf h)
  | word hw hm =>
      subst hr
      have hx : wordLength (c :: x ++ y) = (c :: x).length := hn.symm
      rw [← hn, ← List.length_cons (a := c), ← wordLength_follows hf hx]
      refine .word hw ?_
      rw [Bool.eq_false_iff] at hm ⊢
      exact mt (hf.mark_append c x) hm

end PlanFeedback.Query
