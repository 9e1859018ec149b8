import Mathlib.Algebra.GroupWithZero.Nat
import PlanFeedback.Proofs.TokenRun

/-!
Several statements in one text, with a semicolon between. Where a statement leaves nothing open, the
scan reads it as if it stood alone, and a statement has the fingerprint that it has on its own.
-/
namespace PlanFeedback.Query

open Text

/-- After an opening double quote, the closing one comes. -/
def closesName : Bytes → Bool
  | [] => false
  | c :: rest =>
    if c = 0x22 then
      match rest with
      | [] => true
      | q :: rest₂ => if q = 0x22 then closesName rest₂ else true
    else closesName rest

/-- A literal, a quoted name or a comment begins here and does not end. -/
def leavesOpen : Bytes → Bool
  | [] => false
  | c :: rest =>
    (opensLiteral (c :: rest) && (literalLength? (c :: rest)).isNone) ||
      (c == 0x22 && !closesName rest) ||
      (c == 0x2F && rest.head? == some 0x2A && (offsetOf? [0x2A, 0x2F] (rest.drop 1)).isNone) ||
      (c == 0x2D && rest.head? == some 0x2D && (offsetOf? [0x0A] rest).isNone)

/-- No token of the remaining bytes is left open. -/
def closedFrom (afterOperand : Bool) : Bytes → Bool
  | [] => true
  | c :: rest =>
    let token := nextToken afterOperand c rest
    !leavesOpen (c :: rest) && closedFrom token.afterOperand (rest.drop (token.length - 1))
termination_by b => b.length

/-- The scan of a text leaves nothing open. -/
def Closed (text : String) : Prop := closedFrom false (utf8 text) = true

instance (text : String) : Decidable (Closed text) := inferInstanceAs (Decidable (_ = true))

/-- Where a statement starts in the text of all: each one before it has a semicolon behind it. -/
def statementStart (statements : List String) (i : Nat) : Nat :=
  ((statements.take i).map fun q => (utf8 q).length + 1).sum

/-! A token before a semicolon. -/

section Separator

variable (b w : Bytes)

theorem takeWhile_separator {p : UInt8 → Bool} (hp : p 0x3B = false) :
    (b ++ 0x3B :: w).takeWhile p = b.takeWhile p := by
  induction b with
  | nil => rw [List.nil_append, List.takeWhile_cons, hp]; rfl
  | cons c b ih => rw [List.cons_append, List.takeWhile_cons, List.takeWhile_cons, ih]

theorem digitsLength_separator : digitsLength (b ++ 0x3B :: w) = digitsLength b := by
  rw [digitsLength, takeWhile_separator b w rfl, digitsLength]

theorem wordLength_separator : wordLength (b ++ 0x3B :: w) = wordLength b := by
  rw [wordLength, takeWhile_separator b w rfl, wordLength]

theorem startsDigit_separator : startsDigit (b ++ 0x3B :: w) = startsDigit b := by
  cases b <;> rfl

theorem startsQuote_separator : startsQuote (b ++ 0x3B :: w) = startsQuote b := by
  cases b <;> rfl

theorem startsNumber_separator : startsNumber (b ++ 0x3B :: w) = startsNumber b := by
  cases b with
  | nil => rfl
  | cons c b => rw [List.cons_append, startsNumber, startsDigit_separator, startsNumber]

theorem startsUnicodeQuote_separator :
    startsUnicodeQuote (b ++ 0x3B :: w) = startsUnicodeQuote b := by
  cases b with
  | nil => rfl
  | cons c b => rw [List.cons_append, startsUnicodeQuote, startsQuote_separator, startsUnicodeQuote]

theorem isStringMark_separator (c : UInt8) :
    isStringMark [c] (b ++ 0x3B :: w) = isStringMark [c] b := by
  rw [isStringMark_singleton, startsQuote_separator, startsUnicodeQuote_separator,
    isStringMark_singleton]

theorem fractionLength_separator : fractionLength (b ++ 0x3B :: w) = fractionLength b := by
  cases b with
  | nil => rfl
  | cons c b => rw [List.cons_append, fractionLength, digitsLength_separator, fractionLength]

theorem signLength_separator : signLength (b ++ 0x3B :: w) = signLength b := by
  cases b <;> rfl

theorem exponentLength_separator : exponentLength (b ++ 0x3B :: w) = exponentLength b := by
  cases b with
  | nil => rfl
  | cons c b =>
      rw [List.cons_append, exponentLength, signLength_separator,
        List.drop_append_of_le_length (signLength_le b), startsDigit_separator,
        digitsLength_separator, exponentLength]

theorem numberLength_separator : numberLength (b ++ 0x3B :: w) = numberLength b := by
  have hwhole := digitsLength_le b
  have hfraction := fractionLength_le (b.drop (digitsLength b))
  rw [List.length_drop] at hfraction
  simp only [numberLength, digitsLength_separator]
  rw [List.drop_append_of_le_length hwhole, fractionLength_separator,
    List.drop_append_of_le_length (by omega), exponentLength_separator]

variable {b}

theorem closingLength?_separator {escapes : Bool} {n : Nat}
    (h : closingLength? escapes b = some n) :
    closingLength? escapes (b ++ 0x3B :: w) = some n := by
  obtain ⟨body, y, rfl, hbody, hy, rfl⟩ := closingLength?_eq_some_iff.1 h
  rw [List.append_assoc, List.cons_append]
  exact hbody.closes (by rwa [startsQuote_separator])

theorem offsetOf?_append {pattern : Bytes} {n : Nat} (h : offsetOf? pattern b = some n) (y : Bytes) :
    offsetOf? pattern (b ++ y) = some n := by
  obtain ⟨z, y', rfl, rfl⟩ := split_of_offsetOf h
  rw [List.append_assoc]
  exact offsetOf?_exchange h

theorem lengthThrough_append {mark : Bytes} (h : (offsetOf? mark b).isNone = false) (y : Bytes) :
    lengthThrough mark (b ++ y) = lengthThrough mark b := by
  obtain ⟨n, hn⟩ : ∃ n, offsetOf? mark b = some n :=
    Option.isSome_iff_exists.1 (by simpa [← Option.not_isSome] using h)
  rw [lengthThrough, offsetOf?_append hn y, lengthThrough, hn]

theorem dollarQuotedLength?_separator {n : Nat} (h : dollarQuotedLength? b = some n) :
    dollarQuotedLength? (b ++ 0x3B :: w) = some n := by
  obtain ⟨tag, body, y, rfl, -, -, -, hn⟩ := dollarQuoted_split h
  have hassoc : tag ++ 0x24 :: (body ++ (0x24 :: tag ++ [0x24]) ++ y) =
      (tag ++ 0x24 :: (body ++ (0x24 :: tag ++ [0x24]))) ++ y := by simp
  have hlength : n = (tag ++ 0x24 :: (body ++ (0x24 :: tag ++ [0x24]))).length + 1 := by
    simp only [List.length_append, List.length_cons, List.length_nil]
    omega
  rw [hassoc, hlength] at h ⊢
  rw [List.append_assoc]
  exact dollarQuotedLength?_exchange h

theorem LiteralForm.separator {c : UInt8} {n : Nat} (h : LiteralForm c b n) :
    LiteralForm c (b ++ 0x3B :: w) n := by
  cases h with
  | quoted h => exact .quoted (closingLength?_separator w h)
  | marker h =>
      rw [← digitsLength_separator b w]
      exact .marker ((startsDigit_separator b w).trans h)
  | dollar hd h =>
      exact .dollar ((startsDigit_separator b w).trans hd) (dollarQuotedLength?_separator w h)
  | signed hc h =>
      rw [← numberLength_separator b w]
      exact .signed hc ((startsNumber_separator b w).trans h)
  | number h =>
      rw [← numberLength_separator (c :: b) w]
      exact .number ((startsNumber_separator (c :: b) w).trans h)
  | escape hc h => exact .escape hc (closingLength?_separator w h)
  | string hc h => exact .string hc (closingLength?_separator w h)
  | unicode hc h => exact .unicode hc (closingLength?_separator w h)
  | word hw hm =>
      rw [← wordLength_separator (c :: b) w]
      exact .word hw ((isStringMark_separator b w c).trans hm)

theorem identifierLength_append (y : Bytes) :
    (b : Bytes) → closesName b = true → (∀ z, y ≠ 0x22 :: z) →
      identifierLength (b ++ y) = identifierLength b
  | [], h, _ => by cases h
  | [c], h, hy => by
      obtain rfl : c = 0x22 := by
        by_contra hc
        simp [closesName, hc] at h
      rw [List.singleton_append, identifierLength_last, identifierLength_last (by simp)]
      cases y with
      | nil => simp
      | cons q y => exact fun hq => hy y (by rw [Option.some.inj hq])
  | c :: d :: b, h, hy => by
      by_cases hc : c = 0x22
      · subst hc
        by_cases hd : d = 0x22
        · subst hd
          have hrest : closesName b = true := by simpa [closesName] using h
          rw [List.cons_append, List.cons_append, identifierLength_doubled,
            identifierLength_doubled, identifierLength_append y b hrest hy]
        · have hb : ∀ z, (d :: z : Bytes).head? ≠ some 0x22 := fun z h => hd (Option.some.inj h)
          rw [List.cons_append, List.cons_append, identifierLength_last (hb _),
            identifierLength_last (hb _)]
      · have hrest : closesName (d :: b) = true := by
          rw [closesName.eq_def] at h
          simpa only [hc, if_false] using h
        rw [List.cons_append, identifierLength_plain _ hc, identifierLength_plain _ hc,
          identifierLength_append y (d :: b) hrest hy]

/-- A token that is not left open is the same token before a semicolon. -/
theorem TokenForm.separator {a : Bool} {c : UInt8} {t : Token} (h : TokenForm a c b t)
    (hclosed : leavesOpen (c :: b) = false) : TokenForm a c (b ++ 0x3B :: w) t := by
  simp only [leavesOpen, Bool.or_eq_false_iff, Bool.and_eq_false_imp] at hclosed
  obtain ⟨⟨⟨hliteral, hname⟩, hblock⟩, hline⟩ := hclosed
  cases h with
  | lineComment h =>
      rw [← lengthThrough_append (hline (by simp [h])) (0x3B :: w)]
      refine .lineComment ?_
      rw [List.head?_append, h]
      rfl
  | @blockComment b =>
      have hends : (offsetOf? [0x2A, 0x2F] b).isNone = false := hblock (by simp)
      rw [← lengthThrough_append hends (0x3B :: w)]
      exact .blockComment
  | negative ha h =>
      rw [← numberLength_separator b w]
      exact .negative ha ((startsNumber_separator b w).trans h)
  | name =>
      rw [← identifierLength_append (0x3B :: w) b (by simpa using hname) (by simp)]
      exact .name
  | opened ho h =>
      refine .opened ?_ (literalLength?_eq_some_iff.2
        ((literalLength?_eq_some_iff.1 h).separator w))
      rw [opensLiteral, isStringMark_separator]
      exact ho
  | stray hc h =>
      have hopens : opensLiteral (c :: b) = true := by rcases hc with rfl | rfl <;> rfl
      rw [h] at hliteral
      cases hliteral hopens
  | number h =>
      rw [← numberLength_separator (c :: b) w]
      exact .number ((startsNumber_separator (c :: b) w).trans h)
  | word hw h =>
      have hmark : isStringMark [c] b = false := by
        by_contra hm
        rw [Bool.not_eq_false] at hm
        have hopen := hliteral (by simp [opensLiteral, hm])
        rw [h hm] at hopen
        cases hopen
      have htake : ((c :: b) ++ 0x3B :: w).take (wordLength (c :: b)) =
          (c :: b).take (wordLength (c :: b)) :=
        List.take_append_of_le_length (wordLength_le (c :: b))
      have hliteral' : isStringMark [c] (b ++ 0x3B :: w) = true →
          literalLength? (c :: (b ++ 0x3B :: w)) = none := by
        rw [isStringMark_separator, hmark]
        exact fun hm => absurd hm Bool.false_ne_true
      have hform := TokenForm.word (a := a) hw hliteral'
      rwa [← List.cons_append, wordLength_separator, htake] at hform
  | space h => exact .space h
  | other hn hq hd hw hs hnum hdash hslash =>
      refine .other hn hq hd hw hs ((startsNumber_separator (c :: b) w).trans hnum) ?_ ?_
      · intro hc
        rw [startsNumber_separator]
        refine ⟨?_, (hdash hc).2⟩
        cases b with
        | nil => exact (by decide : some (0x3B : UInt8) ≠ some 0x2D)
        | cons d b => exact (hdash hc).1
      · intro hc
        cases b with
        | nil => exact (by decide : some (0x3B : UInt8) ≠ some 0x2A)
        | cons d b => exact hslash hc

end Separator

/-! The scan of several statements. -/

section Token

variable {a : Bool} {c : UInt8} {x y : Bytes} {t : Token}

theorem closedFrom_token (h : TokenForm a c (x ++ y) t) (ht : t.length = x.length + 1) :
    closedFrom a (c :: (x ++ y)) =
      (!leavesOpen (c :: (x ++ y)) && closedFrom t.afterOperand y) := by
  have hdrop : (x ++ y).drop (t.length - 1) = y := by
    rw [ht, Nat.add_sub_cancel, List.drop_left]
  rw [closedFrom]
  simp only [h.nextToken, hdrop]

end Token

/-- A location in a text that stands `n` bytes further on. -/
def Location.moved (n : Nat) (l : Location) : Location := { l with offset := n + l.offset }

theorem scanFrom_moved (n : Nat) (a : Bool) (b : Bytes) :
    ∀ position, scanFrom a (n + position) b = (scanFrom a position b).map (Location.moved n) := by
  induction a, b using token_induction with
  | nil a =>
      intro position
      rw [scanFrom, scanFrom, List.map_nil]
  | token a c x y t h ht ih =>
      intro position
      rw [scanFrom_token _ h ht, scanFrom_token _ h ht, Nat.add_assoc, ih, List.map_append]
      split <;> rfl

theorem scanFrom_offset_lt (a : Bool) (b : Bytes) :
    ∀ position, ∀ l ∈ scanFrom a position b, l.offset < position + b.length := by
  induction a, b using token_induction with
  | nil a =>
      intro position l hl
      rw [scanFrom] at hl
      cases hl
  | token a c x y t h ht ih =>
      intro position l hl
      rw [scanFrom_token position h ht, List.mem_append] at hl
      rw [List.length_cons, List.length_append]
      rcases hl with hl | hl
      · split at hl
        · rw [List.mem_singleton.1 hl]
          change position < _
          omega
        · cases hl
      · have := ih (position + t.length) l hl
        omega

/-- Behind a statement that leaves nothing open, the scan begins anew after the semicolon. -/
theorem scanFrom_separator (w : Bytes) (a : Bool) (b : Bytes) : closedFrom a b = true →
    ∀ position, scanFrom a position (b ++ 0x3B :: w) =
      scanFrom a position b ++ scanFrom false (position + b.length + 1) w := by
  induction a, b using token_induction with
  | nil a =>
      intro _ position
      have hform : TokenForm a 0x3B ([] ++ w) (.code 1 false) :=
        TokenForm.other (by decide) (by decide) (by decide) rfl rfl rfl
          (fun hc => absurd hc (by decide)) (fun hc => absurd hc (by decide))
      have hscan := scanFrom_token position hform rfl
      rw [scanFrom]
      exact hscan
  | token a c x y t h ht ih =>
      intro hclosed position
      rw [closedFrom_token h ht, Bool.and_eq_true, Bool.not_eq_true'] at hclosed
      have hform := h.separator w hclosed.1
      rw [List.append_assoc] at hform
      have hlength : position + (c :: (x ++ y)).length + 1 =
          position + t.length + y.length + 1 := by
        rw [ht, List.length_cons, List.length_append]
        omega
      rw [List.cons_append, List.append_assoc, scanFrom_token position hform ht,
        scanFrom_token position h ht, ih hclosed.2, hlength, List.append_assoc]

def terminated (statements : List String) : String :=
  String.join (statements.map fun q => q ++ ";")

theorem utf8_semicolon : utf8 ";" = [0x3B] := rfl

theorem utf8_terminated_cons (q : String) (qs : List String) :
    utf8 (terminated (q :: qs)) = utf8 q ++ 0x3B :: utf8 (terminated qs) := by
  rw [terminated, List.map_cons, String.join_cons, utf8_append, utf8_append, utf8_semicolon,
    List.append_assoc, List.singleton_append, terminated]

theorem length_terminated (qs : List String) :
    (utf8 (terminated qs)).length = (qs.map fun q => (utf8 q).length + 1).sum := by
  induction qs with
  | nil => rfl
  | cons q qs ih =>
      rw [utf8_terminated_cons, List.length_append, List.length_cons, ih, List.map_cons,
        List.sum_cons]
      omega

/-- What is found before a statement lies before it, and the statement is scanned as at the start of
a text. -/
theorem scanFrom_terminated (y : Bytes) (qs : List String) (hclosed : ∀ q ∈ qs, Closed q) :
    ∀ position, ∃ found, (∀ l ∈ found, l.offset < position + (utf8 (terminated qs)).length) ∧
      scanFrom false position (utf8 (terminated qs) ++ y) =
        found ++ scanFrom false (position + (utf8 (terminated qs)).length) y := by
  induction qs with
  | nil =>
      intro position
      exact ⟨[], by simp, rfl⟩
  | cons q qs ih =>
      intro position
      obtain ⟨hq, hqs⟩ := List.forall_mem_cons.1 hclosed
      obtain ⟨found, hfound, hscan⟩ := ih hqs (position + (utf8 q).length + 1)
      have hlength : position + (utf8 (terminated (q :: qs))).length =
          position + (utf8 q).length + 1 + (utf8 (terminated qs)).length := by
        rw [utf8_terminated_cons, List.length_append, List.length_cons]
        omega
      refine ⟨scanFrom false position (utf8 q) ++ found, fun l hl => ?_, ?_⟩
      · rw [hlength]
        rcases List.mem_append.1 hl with hl | hl
        · have := scanFrom_offset_lt _ _ _ l hl
          omega
        · exact hfound l hl
      · rw [hlength, utf8_terminated_cons, List.append_assoc, List.cons_append,
          scanFrom_separator _ _ _ hq, hscan, List.append_assoc]

theorem intercalate_split (before : List String) (q : String) (after : List String) :
    ∃ rest, (rest = "" ∨ ∃ more, rest = ";" ++ more) ∧
      ";".intercalate (before ++ q :: after) = terminated before ++ (q ++ rest) := by
  induction before with
  | nil =>
      cases after with
      | nil => exact ⟨"", Or.inl rfl, by simp [terminated]⟩
      | cons r rs =>
          refine ⟨_, Or.inr ⟨";".intercalate (r :: rs), rfl⟩, ?_⟩
          simp [terminated, String.intercalate_cons_cons, String.append_assoc]
  | cons p before ih =>
      obtain ⟨rest, hrest, hsplit⟩ := ih
      refine ⟨rest, hrest, ?_⟩
      rw [List.cons_append, String.intercalate_cons_of_ne_nil (by simp), hsplit, terminated,
        terminated, List.map_cons, String.join_cons]
      simp only [String.append_assoc]

/-! One statement of several. -/

theorem stretch?_eq_none {text : Bytes} {l : Location} (h : text.length ≤ l.offset) :
    l.stretch? text = none := by
  rw [Location.stretch?, if_neg (by omega)]

/-- Of the locations of a whole text only those of a statement count in the statement. -/
theorem normalizeBytes_relative {source : Source} {text : Bytes}
    {before inside after : List Location} (hbefore : ∀ l ∈ before, l.offset < source.start)
    (hafter : ∀ l ∈ after, source.start + text.length ≤ l.offset) :
    normalizeBytes text
        (source.relative (before ++ (inside.map (Location.moved source.start) ++ after))) =
      normalizeBytes text inside := by
  have hnone : before.filter (fun l => source.start ≤ l.offset) = [] := by
    rw [List.filter_eq_nil_iff]
    intro l hl
    have := hbefore l hl
    simp only [decide_eq_true_eq]
    omega
  have hinside : (inside.map (Location.moved source.start)).filter
      (fun l => source.start ≤ l.offset) = inside.map (Location.moved source.start) := by
    rw [List.filter_eq_self]
    intro l hl
    obtain ⟨l, -, rfl⟩ := List.mem_map.1 hl
    exact decide_eq_true (Nat.le_add_right source.start l.offset)
  have hback : ∀ l : Location,
      { l.moved source.start with offset := (l.moved source.start).offset - source.start } = l := by
    intro l
    simp only [Location.moved, Nat.add_sub_cancel_left]
  have hgone : ((after.filter fun l => source.start ≤ l.offset).map fun l =>
      { l with offset := l.offset - source.start }).filterMap (Location.stretch? text) = [] := by
    rw [List.filterMap_eq_nil_iff]
    intro l' hl'
    obtain ⟨l, hl, rfl⟩ := List.mem_map.1 hl'
    have hle := hafter l (List.mem_filter.1 hl).1
    exact stretch?_eq_none (Nat.le_sub_of_add_le' hle)
  apply normalizeBytes_stretches
  rw [Source.relative, List.filter_append, List.filter_append, hnone, hinside, List.nil_append,
    List.map_append, List.filterMap_append, List.map_map, hgone, List.append_nil]
  congr 1
  exact (List.map_congr_left fun l _ => hback l).trans (List.map_id' inside)

theorem statement?_of_append {source : Source} {before q rest : String}
    (htext : source.text = before ++ (q ++ rest)) (hstart : source.start = (utf8 before).length)
    (hlength : source.length? = some (utf8 q).length) : source.statement? = some (utf8 q) := by
  have hbytes : utf8 source.text = utf8 before ++ (utf8 q ++ utf8 rest) := by
    rw [htext, utf8_append, utf8_append]
  have hstop : min ((utf8 before).length + (utf8 q).length) (utf8 source.text).length =
      (utf8 before).length + (utf8 q).length := by
    rw [hbytes, List.length_append, List.length_append]
    omega
  have hfirst : isBoundary (utf8 source.text) (utf8 before).length = true := by
    rw [hbytes, ← utf8_append q rest]
    exact (isBoundary_append _ _).2 (isText_utf8 _).startsFresh
  have hlast : isBoundary (utf8 source.text) ((utf8 before).length + (utf8 q).length) = true := by
    rw [hbytes, ← List.append_assoc, ← List.length_append]
    exact (isBoundary_append _ _).2 (isText_utf8 rest).startsFresh
  simp only [Source.statement?, hlength, hstart, hstop]
  rw [slice?, if_pos ⟨Nat.le_add_right _ _, hfirst, hlast⟩, hbytes, slice_append_left]

theorem fingerprint_of_split {before : List String} {q rest : String}
    (hclosed : ∀ p ∈ before ++ [q], Closed p) (hrest : rest = "" ∨ ∃ more, rest = ";" ++ more) :
    Source.fingerprint?
        { text := terminated before ++ (q ++ rest)
          start := (utf8 (terminated before)).length
          length? := some (utf8 q).length
          locations? := some (scan (terminated before ++ (q ++ rest))) } =
      (Source.new q (scan q)).fingerprint? := by
  generalize hsource : ({ text := _, start := _, length? := _, locations? := _ } : Source) = source
  have hstart : source.start = (utf8 (terminated before)).length := by rw [← hsource]
  have htext : source.text = terminated before ++ (q ++ rest) := by rw [← hsource]
  have hlength : source.length? = some (utf8 q).length := by rw [← hsource]
  have hstatement : source.statement? = some (utf8 q) := statement?_of_append htext hstart hlength
  have hbefore : ∀ p ∈ before, Closed p := fun p hp => hclosed p (List.mem_append_left _ hp)
  have hq : Closed q := hclosed q (by simp)
  obtain ⟨found, hfound, hscan⟩ := scanFrom_terminated (utf8 (q ++ rest)) before hbefore 0
  obtain ⟨later, hlater, hinside⟩ : ∃ later, (∀ l ∈ later,
      (utf8 (terminated before)).length + (utf8 q).length ≤ l.offset) ∧
      scanFrom false (utf8 (terminated before)).length (utf8 (q ++ rest)) =
        scanFrom false (utf8 (terminated before)).length (utf8 q) ++ later := by
    rcases hrest with rfl | ⟨more, rfl⟩
    · exact ⟨[], by simp, by simp⟩
    · refine ⟨scanFrom false ((utf8 (terminated before)).length + (utf8 q).length + 1) (utf8 more),
        fun l hl => ?_, ?_⟩
      · have := scanFrom_offset_ge _ _ _ l hl
        omega
      · rw [utf8_append, utf8_append, utf8_semicolon, List.singleton_append]
        exact scanFrom_separator _ _ _ hq _
  have hlocations : source.locations? = some (found ++ ((scan q).map
      (Location.moved source.start) ++ later)) := by
    rw [← hsource]
    simp only [scan]
    rw [utf8_append, hscan, Nat.zero_add, hinside, ← scanFrom_moved, Nat.add_zero]
  rw [fingerprint_new, Source.fingerprint?, hlocations, hstatement]
  simp only [Option.bind_eq_bind, Option.bind_some]
  rw [normalizeBytes_relative (by simpa [hstart] using hfound) (by simpa [hstart] using hlater)]
  rfl

/-- Where no statement leaves anything open, each has in the text of all, with the literals of that
text, the fingerprint that it has on its own. -/
theorem fingerprint_statement {statements : List String} (hclosed : ∀ q ∈ statements, Closed q)
    {i : Nat} (hi : i < statements.length) :
    Source.fingerprint?
        { text := ";".intercalate statements
          start := statementStart statements i
          length? := some (utf8 statements[i]).length
          locations? := some (scan (";".intercalate statements)) } =
      (Source.new statements[i] (scan statements[i])).fingerprint? := by
  have hsplit : statements.take i ++ statements[i] :: statements.drop (i + 1) = statements := by
    rw [List.getElem_cons_drop, List.take_append_drop]
  obtain ⟨rest, hrest, htext⟩ :=
    intercalate_split (statements.take i) statements[i] (statements.drop (i + 1))
  rw [hsplit] at htext
  have hprefix : ∀ p ∈ statements.take i ++ [statements[i]], Closed p := by
    intro p hp
    refine hclosed p ?_
    rcases List.mem_append.1 hp with hp | hp
    · exact List.mem_of_mem_take hp
    · rw [List.mem_singleton.1 hp]
      exact List.getElem_mem hi
  rw [htext, statementStart, ← length_terminated]
  exact fingerprint_of_split hprefix hrest

/-- Statements with a semicolon in a string and in a comment, a minus at the start and an `E` at the
end. -/
def mixedStatements : List String :=
  ["SELECT 'a;''b', x-1 -- 2;\n", "-5 /* '; */ + 1.E", "SELECT $q$;$q$ \"é;\" e"]

theorem fingerprint_statement_mixed :
    (∀ q ∈ mixedStatements, Closed q) ∧ ∃ h : 1 < mixedStatements.length,
      Source.fingerprint?
          { text := ";".intercalate mixedStatements
            start := statementStart mixedStatements 1
            length? := some (utf8 mixedStatements[1]).length
            locations? := some (scan (";".intercalate mixedStatements)) } =
        (Source.new mixedStatements[1] (scan mixedStatements[1])).fingerprint? := by
  have hclosed : ∀ q ∈ mixedStatements, Closed q := by decide +kernel
  exact ⟨hclosed, by decide, fingerprint_statement hclosed (by decide)⟩

end PlanFeedback.Query
