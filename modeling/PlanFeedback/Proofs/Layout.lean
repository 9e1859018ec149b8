import Mathlib.Algebra.Group.Nat.Even
import Mathlib.Data.List.DropRight
import PlanFeedback.Proofs.Blanking
import PlanFeedback.Proofs.Substitution

/-!
The layout of a query. A run of blanks between two tokens may be exchanged for another one: the
tokens around it are read as before. Whether the query id changes is up to the apostrophes that the
normal form holds before the run.
-/
namespace PlanFeedback.Query

open Text

/-- Wherever a token opens a literal, the literal is closed. -/
def NoneOpen (text : String) : Prop := ∀ i ∈ tokenStarts text, ClosesLiteral ((utf8 text).drop i)

instance (z : Bytes) : Decidable (ClosesLiteral z) :=
  inferInstanceAs (Decidable (opensLiteral z = true → (literalLength? z).isSome = true))

instance (text : String) : Decidable (NoneOpen text) :=
  inferInstanceAs (Decidable (∀ i ∈ tokenStarts text, ClosesLiteral ((utf8 text).drop i)))

/-- One or more blanks of the kind that the scanner passes over. -/
def IsRun (w : String) : Prop :=
  w.toList ≠ [] ∧ ∀ c ∈ w.toList, c ∈ [' ', '\t', '\n', '\x0C', '\r']

instance (w : String) : Decidable (IsRun w) :=
  @instDecidableAnd _ _ inferInstance (List.decidableBAll _ w.toList)

theorem IsRun.isBlank {w : String} (h : IsRun w) : ∀ c ∈ w.toList, isBlank c = true := by
  intro c hc
  have hmark := h.2 c hc
  simp only [List.mem_cons, List.not_mem_nil, or_false] at hmark
  rcases hmark with rfl | rfl | rfl | rfl | rfl <;> rfl

theorem IsRun.isSpace {w : String} (h : IsRun w) : ∀ b ∈ utf8 w, isSpace b = true := by
  intro b hb
  obtain ⟨c, hc, hb⟩ := List.mem_flatMap.1 hb
  have hmark := h.2 c hc
  simp only [List.mem_cons, List.not_mem_nil, or_false] at hmark
  rcases hmark with rfl | rfl | rfl | rfl | rfl
  all_goals
    obtain rfl := List.mem_singleton.1 hb
    rfl

theorem IsRun.utf8_ne_nil {w : String} (h : IsRun w) : utf8 w ≠ [] := by
  intro hnil
  obtain rfl : w = "" := utf8_injective hnil
  exact h.1 rfl

/-! The scan. -/

theorem StartsInert.of_spaces {v : Bytes} (hne : v ≠ []) (hv : ∀ b ∈ v, isSpace b = true)
    (s : Bytes) : StartsInert (v ++ s) := by
  cases v with
  | nil => exact absurd rfl hne
  | cons c v => exact .cons (isInert_of_space (hv c List.mem_cons_self)) (v ++ s)

theorem tokenStartsFrom_ge (a : Bool) (b : Bytes) :
    ∀ position, ∀ i ∈ tokenStartsFrom a position b, position ≤ i := by
  induction a, b using token_induction with
  | nil a =>
      intro position i hi
      rw [tokenStartsFrom] at hi
      cases hi
  | token a c x y t h ht ih =>
      intro position i hi
      rw [tokenStartsFrom_token position h ht] at hi
      rcases List.mem_cons.1 hi with rfl | hi
      · exact Nat.le_refl i
      · have := ih (position + t.length) i hi
        omega

/-- Blanks are passed over one by one and stay as they are. -/
theorem blank_spaces (a : Bool) {v : Bytes} (hv : ∀ b ∈ v, isSpace b = true) (s : Bytes) :
    blank a (v ++ s) = v ++ blank a s := by
  induction v with
  | nil => rfl
  | cons c v ih =>
      have hform : TokenForm a c ([] ++ (v ++ s)) (.code 1 a) := .space (hv c List.mem_cons_self)
      have htail : ∀ b ∈ v, isSpace b = true := fun b hb => hv b (List.mem_cons_of_mem c hb)
      rw [List.cons_append, ← List.nil_append (v ++ s), blank_token hform rfl, Token.code, ih htail]
      rfl

/-- The first bytes are read before `z` as these tokens, after which the context is the second
one. -/
inductive Reads (z : Bytes) : Bool → Bytes → List Token → Bool → Prop where
  | done (a : Bool) : Reads z a [] [] a
  | token {a a' : Bool} {c : UInt8} {x p : Bytes} {t : Token} {ts : List Token} :
      TokenForm a c (x ++ (p ++ z)) t → t.length = x.length + 1 → Reads z t.afterOperand p ts a' →
      Reads z a (c :: (x ++ p)) (t :: ts) a'

/-- Where a token starts at `v`, what stands before it is read in one way before everything that
starts inert. -/
theorem reads_before {v : Bytes} (hne : v ≠ []) (a : Bool) (b : Bytes) : ∀ pre p, b = p ++ v →
      pre.length + p.length ∈ tokenStartsFrom a pre.length b →
      (∀ i ∈ tokenStartsFrom a pre.length b, ClosesLiteral ((pre ++ b).drop i)) →
      ∃ ts a', ∀ z, StartsInert z → Reads z a p ts a' := by
  induction a, b using token_induction with
  | nil a =>
      intro pre p hb
      exact absurd (List.append_eq_nil_iff.1 hb.symm).2 hne
  | token a c x y t h ht ih =>
      intro pre p hb hstart hclosed
      have hpre : (pre ++ c :: x).length = pre.length + t.length := by
        rw [List.length_append, List.length_cons, ht]
      rw [tokenStartsFrom_token _ h ht] at hstart
      cases p with
      | nil => exact ⟨[], a, fun z _ => .done a⟩
      | cons c' p =>
          have hlater : pre.length + (c' :: p).length ∈
              tokenStartsFrom t.afterOperand (pre.length + t.length) y := by
            rcases List.mem_cons.1 hstart with hs | hs
            · rw [List.length_cons] at hs
              omega
            · exact hs
          have hle : (c :: x).length ≤ (c' :: p).length := by
            have := tokenStartsFrom_ge _ _ _ _ hlater
            rw [List.length_cons, ← ht]
            omega
          obtain ⟨p'', hp, rfl⟩ := split_within hb hle
          have hsum : pre.length + (c :: x ++ p'').length = (pre ++ c :: x).length + p''.length := by
            simp only [List.length_append, List.length_cons]
            omega
          rw [hp, hsum, ← hpre] at hlater
          obtain ⟨hhere, hbehind⟩ := forall_tokenStarts (P := fun _ z => ClosesLiteral z) h ht hclosed
          have hy : p'' ++ v ≠ [] := by simp [hne]
          obtain ⟨ts, a', hts⟩ := ih (pre ++ c :: x) p'' rfl hlater hbehind
          refine ⟨t :: ts, a', ?_⟩
          intro z hz
          rw [hp]
          exact .token (h.follows (hz.follows p'' v) hy hhere.ne_none ht) ht (hts z hz)

def written : List Token → Bytes → Bytes
  | [], _ => []
  | t :: ts, p => t.shown (p.take t.length) ++ written ts (p.drop t.length)

theorem Reads.blank {z p : Bytes} {a a' : Bool} {ts : List Token} (h : Reads z a p ts a') :
    blank a (p ++ z) = written ts p ++ Query.blank a' z := by
  induction h with
  | done a => rfl
  | @token a a' c x p t ts hform ht _ ih =>
      have hlength : t.length = (c :: x).length := ht
      rw [List.cons_append, List.append_assoc, blank_token hform ht, ih, written, hlength,
        ← List.cons_append, List.take_left, List.drop_left, List.append_assoc]

/-- A run put between two tokens parts the blanking: what stands before it is blanked as if it ended
there, and what stands behind it does not depend on the run. -/
theorem blank_run {v s : Bytes} (hne : v ≠ []) (a : Bool) (b : Bytes) (pre p : Bytes)
    (hb : b = p ++ (v ++ s)) (hstart : pre.length + p.length ∈ tokenStartsFrom a pre.length b)
    (hclosed : ∀ i ∈ tokenStartsFrom a pre.length b, ClosesLiteral ((pre ++ b).drop i)) :
    ∃ a', ∀ v' : Bytes, v' ≠ [] → (∀ b ∈ v', isSpace b = true) →
      blank a (p ++ (v' ++ s)) = blank a p ++ (v' ++ blank a' s) := by
  obtain ⟨ts, a', hts⟩ := reads_before (v := v ++ s) (by simp [hne]) a b pre p hb hstart hclosed
  refine ⟨a', ?_⟩
  intro v' hne' hv'
  have hend := (hts [] .nil).blank
  rw [List.append_nil, blank_nil, List.append_nil] at hend
  rw [(hts (v' ++ s) (.of_spaces hne' hv' s)).blank, blank_spaces a' hv', hend]

/-! The collapsed text. -/

section Collapse

variable {x y v v' : List Char}

/-- Whether the collapsing is within apostrophes when it has read a text. -/
def quotedAfter (quoted : Bool) : List Char → Bool
  | [] => quoted
  | c :: rest => quotedAfter (if c = '\'' then !quoted else quoted) rest

theorem quotedAfter_eq (x : List Char) : ∀ quoted,
    quotedAfter quoted x = (quoted ^^ !decide (Even (x.count '\''))) := by
  induction x with
  | nil => simp [quotedAfter]
  | cons c x ih =>
      intro quoted
      rw [quotedAfter, ih]
      by_cases hc : c = '\''
      · subst hc
        by_cases heven : Even (x.count '\'') <;> simp [heven, Nat.even_add_one]
      · rw [if_neg hc, List.count_cons_of_ne hc]

/-- What is written for a first part does not depend on the rest of the text. -/
theorem squeeze_append (x : List Char) : ∀ quoted pending, ∃ out pending', ∀ y,
    squeeze quoted pending (x ++ y) = out ++ squeeze (quotedAfter quoted x) pending' y := by
  induction x with
  | nil =>
      intro quoted pending
      exact ⟨[], pending, fun y => rfl⟩
  | cons c x ih =>
      intro quoted pending
      cases hskip : !quoted && isBlank c with
      | true =>
          have hc : c ≠ '\'' := by
            rintro rfl
            simp [isBlank] at hskip
          obtain ⟨out, pending', hout⟩ := ih quoted true
          refine ⟨out, pending', ?_⟩
          intro y
          rw [List.cons_append, squeeze, if_pos hskip, hout, quotedAfter, if_neg hc]
      | false =>
          obtain ⟨out, pending', hout⟩ := ih (if c = '\'' then !quoted else quoted) false
          refine ⟨(if pending then [' '] else []) ++ c :: out, pending', ?_⟩
          intro y
          rw [List.cons_append, squeeze, if_neg (by rw [hskip]; exact Bool.false_ne_true), hout,
            quotedAfter]
          cases pending <;> rfl

theorem squeeze_blanks (hv : ∀ c ∈ v, isBlank c = true) :
    squeeze false true (v ++ y) = squeeze false true y := by
  induction v with
  | nil => rfl
  | cons c v ih =>
      obtain ⟨hc, hv⟩ := List.forall_mem_cons.1 hv
      rw [List.cons_append, squeeze, hc]
      exact ih hv

/-- Outside apostrophes a run of blanks leaves no trace but that there was one. -/
theorem squeeze_run (hne : v ≠ []) (hv : ∀ c ∈ v, isBlank c = true) (pending : Bool) :
    squeeze false pending (v ++ y) = squeeze false true y := by
  cases v with
  | nil => exact absurd rfl hne
  | cons c v =>
      obtain ⟨hc, hv⟩ := List.forall_mem_cons.1 hv
      rw [List.cons_append, squeeze, hc]
      exact squeeze_blanks hv

theorem isBlank_ne_apostrophe {c : Char} (hc : isBlank c = true) : c ≠ '\'' := by
  rintro rfl
  cases hc

theorem squeeze_quoted_blanks (hv : ∀ c ∈ v, isBlank c = true) :
    squeeze true false (v ++ y) = v ++ squeeze true false y := by
  induction v with
  | nil => rfl
  | cons c v ih =>
      obtain ⟨hc, hv⟩ := List.forall_mem_cons.1 hv
      simp only [List.cons_append, squeeze, Bool.not_true, Bool.false_and, Bool.false_eq_true,
        if_false, if_neg (isBlank_ne_apostrophe hc), ih hv]

theorem squeeze_quoted_run (hne : v ≠ []) (hv : ∀ c ∈ v, isBlank c = true) (pending : Bool) :
    squeeze true pending (v ++ y) =
      (if pending then [' '] else []) ++ (v ++ squeeze true false y) := by
  cases v with
  | nil => exact absurd rfl hne
  | cons c v =>
      obtain ⟨hc, hv⟩ := List.forall_mem_cons.1 hv
      simp only [List.cons_append, squeeze, Bool.not_true, Bool.false_and, Bool.false_eq_true,
        if_false, if_neg (isBlank_ne_apostrophe hc), squeeze_quoted_blanks hv]
      cases pending <;> rfl

theorem dropWhile_ne_nil (hx : ¬ ∀ c ∈ x, isBlank c = true) : x.dropWhile isBlank ≠ [] := by
  rwa [Ne, List.dropWhile_eq_nil_iff]

theorem trimBlanks_eq (x : List Char) : trimBlanks x = (x.dropWhile isBlank).rdropWhile isBlank :=
  rfl

theorem rdropWhile_blanks (hy : ∀ c ∈ y, isBlank c = true) :
    (x ++ y).rdropWhile isBlank = x.rdropWhile isBlank := by
  rw [List.rdropWhile, List.reverse_append, List.dropWhile_append_of_pos]
  · rfl
  · intro c hc
    exact hy c (List.mem_reverse.1 hc)

theorem trimBlanks_append_blanks (hy : ∀ c ∈ y, isBlank c = true) :
    trimBlanks (x ++ y) = trimBlanks x := by
  rw [trimBlanks_eq, trimBlanks_eq, List.dropWhile_append]
  split
  · rename_i hx
    rw [List.isEmpty_iff.1 hx, List.dropWhile_eq_nil_iff.2 hy]
  · exact rdropWhile_blanks hy

theorem trimBlanks_blanks_append (hx : ∀ c ∈ x, isBlank c = true) :
    trimBlanks (x ++ y) = trimBlanks y := by
  rw [trimBlanks_eq, List.dropWhile_append_of_pos hx, trimBlanks_eq]

theorem trimBlanks_between (hx : ¬ ∀ c ∈ x, isBlank c = true) (hy : ¬ ∀ c ∈ y, isBlank c = true) :
    trimBlanks (x ++ (v ++ y)) = x.dropWhile isBlank ++ (v ++ y.rdropWhile isBlank) := by
  have hend : y.reverse.dropWhile isBlank ≠ [] := by
    apply dropWhile_ne_nil
    simpa only [List.mem_reverse] using hy
  rw [trimBlanks_eq, List.dropWhile_append, if_neg (by simpa using dropWhile_ne_nil hx),
    ← List.append_assoc, ← List.append_assoc, List.rdropWhile, List.reverse_append,
    List.dropWhile_append, if_neg (by simpa using hend), List.reverse_append,
    List.reverse_reverse]
  rfl

theorem count_dropWhile_blank (x : List Char) :
    (x.dropWhile isBlank).count '\'' = x.count '\'' := by
  have hnone : (x.takeWhile isBlank).count '\'' = 0 := by
    rw [List.count_eq_zero]
    intro hmem
    exact isBlank_ne_apostrophe (List.mem_takeWhile_imp hmem) rfl
  conv => rhs; rw [← List.takeWhile_append_dropWhile (p := isBlank) (l := x)]
  rw [List.count_append, hnone, Nat.zero_add]

/-- Two runs of blanks at one place give the same collapsed text exactly if they are the same, an
even number of apostrophes stands before them, or nothing but blanks stands behind them. -/
theorem squeeze_trim_iff (hne : v ≠ []) (hv : ∀ c ∈ v, isBlank c = true) (hne' : v' ≠ [])
    (hv' : ∀ c ∈ v', isBlank c = true) :
    squeeze false false (trimBlanks (x ++ (v ++ y))) =
        squeeze false false (trimBlanks (x ++ (v' ++ y))) ↔
      v = v' ∨ Even (x.count '\'') ∨ ∀ c ∈ y, isBlank c = true := by
  by_cases hy : ∀ c ∈ y, isBlank c = true
  · have hend : ∀ u : List Char, (∀ c ∈ u, isBlank c = true) →
        trimBlanks (x ++ (u ++ y)) = trimBlanks x := fun u hu =>
      trimBlanks_append_blanks fun c hc => (List.mem_append.1 hc).elim (hu c) (hy c)
    rw [hend v hv, hend v' hv']
    exact ⟨fun _ => Or.inr (Or.inr hy), fun _ => rfl⟩
  by_cases hx : ∀ c ∈ x, isBlank c = true
  · have hstart : ∀ u : List Char, (∀ c ∈ u, isBlank c = true) →
        trimBlanks (x ++ (u ++ y)) = trimBlanks y := by
      intro u hu
      rw [trimBlanks_blanks_append hx, trimBlanks_blanks_append hu]
    have hcount : x.count '\'' = 0 := by
      rw [List.count_eq_zero]
      intro hmem
      exact isBlank_ne_apostrophe (hx _ hmem) rfl
    rw [hstart v hv, hstart v' hv', hcount]
    exact ⟨fun _ => Or.inr (Or.inl Even.zero), fun _ => rfl⟩
  -- something stands on both sides: the run is read in the state that the first part leaves
  obtain ⟨out, pending, hout⟩ := squeeze_append (x.dropWhile isBlank) false false
  rw [trimBlanks_between hx hy, trimBlanks_between hx hy, hout, hout, quotedAfter_eq,
    count_dropWhile_blank, Bool.false_xor]
  by_cases heven : Even (x.count '\'')
  · rw [decide_eq_true heven, Bool.not_true, squeeze_run hne hv, squeeze_run hne' hv']
    exact ⟨fun _ => Or.inr (Or.inl heven), fun _ => rfl⟩
  · rw [decide_eq_false heven, Bool.not_false, squeeze_quoted_run hne hv,
      squeeze_quoted_run hne' hv', List.append_cancel_left_eq, List.append_cancel_left_eq,
      List.append_cancel_right_eq]
    exact ⟨Or.inl, fun h => h.resolve_right fun h => h.elim heven hy⟩

end Collapse

/-! Blank rests. -/

theorem isBlank_bytes {c : Char} (hc : isBlank c = true) :
    ∀ b ∈ String.utf8EncodeChar c, b ≤ 0x20 ∨ 0x80 ≤ b := by
  obtain ⟨a, tail, hencode, -, htail, hread⟩ := encodeChar_cons c
  intro b hb
  rw [hencode] at hb
  rcases List.mem_cons.1 hb with rfl | hb
  · by_cases hlt : b < 0x80
    · have hb : b.toNat < 0x80 := UInt8.lt_iff_toNat_lt.1 hlt
      have hn : c.toNat = b.toNat := by
        have hchar := hread []
        rw [character?, if_pos hlt, Option.some.injEq] at hchar
        rw [← hchar, toNat_ofNat_char (Or.inl (by omega))]
      simp only [isBlank, hn, Bool.or_eq_true, Bool.and_eq_true, decide_eq_true_eq,
        beq_iff_eq] at hc
      refine Or.inl (UInt8.le_iff_toNat_le.2 ?_)
      change b.toNat ≤ 32
      omega
    · exact Or.inr (UInt8.not_lt.1 hlt)
  · have hcont := htail b hb
    rw [isContinuation, Bool.and_eq_true, decide_eq_true_eq] at hcont
    exact Or.inr hcont.1

theorem utf8_blanks {s : String} (hs : ∀ c ∈ s.toList, isBlank c = true) :
    ∀ b ∈ utf8 s, b ≤ 0x20 ∨ 0x80 ≤ b := by
  intro b hb
  obtain ⟨c, hc, hb⟩ := List.mem_flatMap.1 hb
  exact isBlank_bytes (hs c hc) b hb

/-- A byte below the marks starts no literal. -/
theorem TokenForm.low {a : Bool} {c : UInt8} {rest : Bytes} {t : Token} (h : TokenForm a c rest t)
    (hc : c ≤ 0x20) : t.isLiteral = false := by
  have hword : isWordStart c = false := by
    unfold isWordStart isLetter isLower isUpper
    grind
  have hdigit : isDigit c = false := by
    unfold isDigit
    grind
  cases h with
  | lineComment | blockComment | name | stray | word | space | other => rfl
  | negative => exact absurd hc (by decide)
  | opened ho _ =>
      simp only [opensLiteral, Bool.or_eq_true, beq_iff_eq] at ho
      rcases ho with (rfl | rfl) | hm
      · exact absurd hc (by decide)
      · exact absurd hc (by decide)
      · rw [isStringMark_wordStart hm] at hword
        cases hword
  | number hn =>
      simp only [startsNumber, hdigit, Bool.false_or, Bool.and_eq_true, beq_iff_eq] at hn
      rw [hn.1] at hc
      exact absurd hc (by decide)

theorem blank_low (a : Bool) (b : Bytes) : (∀ c ∈ b, c ≤ 0x20 ∨ 0x80 ≤ c) → blank a b = b := by
  induction a, b using token_induction with
  | nil a =>
      intro _
      exact blank_nil a
  | token a c x y t h ht ih =>
      intro hlow
      have hcode : t.isLiteral = false := by
        cases hl : t.isLiteral with
        | false => rfl
        | true =>
            have hlt := (h.literalEnd ht hl).1
            have hc := (hlow c List.mem_cons_self).resolve_right (UInt8.not_le.2 hlt)
            rw [h.low hc] at hl
            cases hl
      have hy : ∀ c ∈ y, c ≤ 0x20 ∨ 0x80 ≤ c := fun d hd =>
        hlow d (List.mem_cons_of_mem c (List.mem_append_right x hd))
      rw [blank_token h ht, Token.shown, hcode, ih hy]
      rfl

theorem Blanked.eq_of_none {b z : Bytes} (h : Blanked b z) (hz : placeholder ∉ z) : b = z := by
  rw [← List.append_nil z] at h
  obtain ⟨b', rfl, hnil⟩ := h.split_left hz
  cases hnil
  exact List.append_nil z

/-- A rest of blanks is left alone, and only a rest of blanks is left as one. -/
theorem blank_blanks {a : Bool} {s r : String} (hr : utf8 r = blank a (utf8 s)) :
    (∀ c ∈ r.toList, isBlank c = true) ↔ ∀ c ∈ s.toList, isBlank c = true := by
  constructor
  · intro h
    have hnone : placeholder ∉ utf8 r := by
      intro hmem
      rcases utf8_blanks h placeholder hmem with hp | hp <;> exact absurd hp (by decide)
    rw [hr] at hnone
    obtain rfl : s = r := by
      apply utf8_injective
      rw [hr]
      exact (blanked_blank a (utf8 s)).eq_of_none hnone
    exact h
  · intro h
    obtain rfl : r = s := by
      apply utf8_injective
      rw [hr]
      exact blank_low a (utf8 s) (utf8_blanks h)
    exact h

/-! The query id. -/

/-- The normal form of a text around a run: only the run itself depends on the run. -/
theorem normalize_run {p w s : String} (hopen : NoneOpen (p ++ w ++ s)) (hne : utf8 w ≠ [])
    (hstart : (utf8 p).length ∈ tokenStarts (p ++ w ++ s)) :
    ∃ r : String, ((∀ c ∈ r.toList, isBlank c = true) ↔ ∀ c ∈ s.toList, isBlank c = true) ∧
      ∀ v, IsRun v →
        normalize (p ++ v ++ s) (scan (p ++ v ++ s)) = normalize p (scan p) ++ v ++ r := by
  have hbytes : ∀ v, utf8 (p ++ v ++ s) = utf8 p ++ (utf8 v ++ utf8 s) := by
    intro v
    rw [utf8_append, utf8_append, List.append_assoc]
  obtain ⟨a, ha⟩ := blank_run hne false (utf8 (p ++ w ++ s)) [] (utf8 p) (hbytes w)
    (by simpa [tokenStarts] using hstart)
    (by simpa [NoneOpen, tokenStarts] using hopen)
  have hr : utf8 (ofUtf8 (blank a (utf8 s))) = blank a (utf8 s) :=
    (isText_blank a (utf8 s) [] (isText_utf8 s)).utf8_ofUtf8
  refine ⟨ofUtf8 (blank a (utf8 s)), blank_blanks hr, ?_⟩
  intro v hv
  apply utf8_injective
  rw [utf8_normalize, hbytes, ha (utf8 v) hv.utf8_ne_nil hv.isSpace, utf8_append, utf8_append,
    utf8_normalize, hr, List.append_assoc]

/-- The query id of a text that is one statement, with the literals that the scanner finds. -/
def queryIdOf? (text : String) : Option UInt32 :=
  (Source.new text (scan text)).fingerprint?.map (·.queryId)

/-- Between these parts the layout has no say: the normal form of the first holds an even number of
apostrophes, or the second is blank. -/
def LayoutFree (p s : String) : Prop :=
  Even ((normalize p (scan p)).toList.count '\'') ∨ ∀ c ∈ s.toList, isBlank c = true

/-- Where a run of blanks between tokens is exchanged, the normal form collapses to the same text
exactly if the run is the same or the place is free of layout, and there the query id stays. -/
theorem queryId_layout {p w w' s : String} (hopen : NoneOpen (p ++ w ++ s)) (hw : IsRun w)
    (hw' : IsRun w') (hstart : (utf8 p).length ∈ tokenStarts (p ++ w ++ s)) :
    (collapse (normalize (p ++ w ++ s) (scan (p ++ w ++ s))) =
        collapse (normalize (p ++ w' ++ s) (scan (p ++ w' ++ s))) ↔ w = w' ∨ LayoutFree p s) ∧
    (LayoutFree p s → queryIdOf? (p ++ w ++ s) = queryIdOf? (p ++ w' ++ s)) := by
  obtain ⟨r, hr, hnormal⟩ := normalize_run hopen hw.utf8_ne_nil hstart
  have hlist : ∀ v, (normalize p (scan p) ++ v ++ r).toList =
      (normalize p (scan p)).toList ++ (v.toList ++ r.toList) := by
    intro v
    rw [String.toList_append, String.toList_append, List.append_assoc]
  have hcollapse : collapse (normalize (p ++ w ++ s) (scan (p ++ w ++ s))) =
      collapse (normalize (p ++ w' ++ s) (scan (p ++ w' ++ s))) ↔ w = w' ∨ LayoutFree p s := by
    rw [hnormal w hw, hnormal w' hw', collapse, collapse, String.ofList_inj, hlist, hlist,
      squeeze_trim_iff hw.1 hw.isBlank hw'.1 hw'.isBlank, String.toList_inj, hr, LayoutFree]
  refine ⟨hcollapse, ?_⟩
  intro hfree
  have hid : queryId (normalize (p ++ w ++ s) (scan (p ++ w ++ s))) =
      queryId (normalize (p ++ w' ++ s) (scan (p ++ w' ++ s))) := by
    rw [queryId, queryId, hcollapse.2 (Or.inr hfree)]
  rw [queryIdOf?, queryIdOf?, fingerprint_new, fingerprint_new, Option.map_some, Option.map_some]
  exact congrArg some hid

theorem queryId_layout_columns :
    LayoutFree "SELECT 'it''s'," "\"a\" FROM t" ∧
      queryIdOf? ("SELECT 'it''s'," ++ " " ++ "\"a\" FROM t") =
        queryIdOf? ("SELECT 'it''s'," ++ "\n\t" ++ "\"a\" FROM t") := by
  have hopen : NoneOpen ("SELECT 'it''s'," ++ " " ++ "\"a\" FROM t") := by decide +kernel
  have hstart : (utf8 "SELECT 'it''s',").length ∈
      tokenStarts ("SELECT 'it''s'," ++ " " ++ "\"a\" FROM t") := by decide +kernel
  have heven : Even ((normalize "SELECT 'it''s'," (scan "SELECT 'it''s',")).toList.count '\'') := by
    decide +kernel
  have hfree : LayoutFree "SELECT 'it''s'," "\"a\" FROM t" := Or.inl heven
  exact ⟨hfree, (queryId_layout hopen (by decide) (by decide) hstart).2 hfree⟩

/-- An apostrophe in a quoted name counts as an opened quote: behind it the layout is kept. -/
theorem queryId_kept_layout :
    NoneOpen ("SELECT \"it's\"" ++ " " ++ "FROM t") ∧ IsRun " " ∧ IsRun "  " ∧
      (utf8 "SELECT \"it's\"").length ∈ tokenStarts ("SELECT \"it's\"" ++ " " ++ "FROM t") ∧
      queryIdOf? ("SELECT \"it's\"" ++ " " ++ "FROM t") ≠
        queryIdOf? ("SELECT \"it's\"" ++ "  " ++ "FROM t") := by
  refine ⟨?_, by decide, by decide, ?_, ?_⟩
  · decide +kernel
  · decide +kernel
  · decide +kernel

end PlanFeedback.Query
