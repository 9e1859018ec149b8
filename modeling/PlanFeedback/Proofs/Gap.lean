import Mathlib.Data.List.Infix
import PlanFeedback.Proofs.Layout
import PlanFeedback.Proofs.Separation
import PlanFeedback.Proofs.Spans

/-!
What stands between two tokens. A blank may be exchanged for any blanks and closed comments: the scan
finds the same literals around them and none among them, and a minus behind them is the sign of a
number exactly if it was one before.
-/
namespace PlanFeedback.Query

open Text

def spaces : List Char := [' ', '\t', '\n', '\x0C', '\r']

/-- A blank, or a comment whose body does not hold the closing mark. -/
inductive Gap where
  | blank (c : Char) (isSpace : c ∈ spaces)
  | comment (body : String) (isOpen : ¬ ['*', '/'] <:+: body.toList)

def Gap.text : Gap → String
  | .blank c _ => String.singleton c
  | .comment body _ => "/*" ++ body ++ "*/"

def gapText (gaps : List Gap) : String := String.join (gaps.map Gap.text)

/-- The literals of a query in the order in which they stand there, as bytes. -/
def literalTexts (text : String) : List Bytes :=
  (scan text).map fun l => slice (utf8 text) l.offset l.stop

/-! The scan of a gap. -/

theorem utf8_space {c : Char} (hc : c ∈ spaces) :
    ∃ b, utf8 (String.singleton c) = [b] ∧ isSpace b = true := by
  simp only [spaces, List.mem_cons, List.not_mem_nil, or_false] at hc
  rcases hc with rfl | rfl | rfl | rfl | rfl <;> exact ⟨_, rfl, rfl⟩

theorem utf8_comment (body : String) :
    utf8 ("/*" ++ body ++ "*/") = 0x2F :: 0x2A :: (utf8 body ++ [0x2A, 0x2F]) := by
  rw [utf8_append, utf8_append]
  rfl

theorem utf8_gapText_cons (g : Gap) (gaps : List Gap) :
    utf8 (gapText (g :: gaps)) = utf8 g.text ++ utf8 (gapText gaps) := by
  rw [gapText, List.map_cons, String.join_cons, utf8_append, gapText]

/-- The mark that closes a comment is the first one behind its body. -/
theorem offsetOf?_body {body : String} (h : ¬ ['*', '/'] <:+: body.toList) (y : Bytes) :
    offsetOf? [0x2A, 0x2F] (utf8 body ++ ([0x2A, 0x2F] ++ y)) = some (utf8 body).length := by
  obtain ⟨n, hn, hle⟩ := offsetOf?_split [0x2A, 0x2F] (utf8 body) y
  rcases Nat.lt_or_eq_of_le hle with hlt | rfl
  · exfalso
    apply h
    obtain ⟨z, w, hsplit, rfl⟩ := split_of_offsetOf hn
    rw [List.append_assoc] at hsplit
    rcases List.append_eq_append_iff.1 hsplit with ⟨more, rfl, -⟩ | ⟨more, hbody, hrest⟩
    · rw [List.length_append] at hlt
      omega
    · rcases more with _ | ⟨e, _ | ⟨f, more⟩⟩
      · rw [hbody, List.append_nil] at hlt
        exact absurd hlt (Nat.lt_irrefl _)
      · simp at hrest
      · simp only [List.cons_append, List.nil_append, List.cons.injEq] at hrest
        obtain ⟨rfl, rfl, -⟩ := hrest
        have htext : IsText (z ++ 0x2A :: 0x2F :: more) := ⟨body, hbody⟩
        obtain ⟨⟨u, rfl⟩, hmark⟩ := htext.split (startsFresh_cons.2 rfl)
        obtain ⟨-, ⟨v, rfl⟩⟩ := IsText.split_ascii (x := [0x2A]) hmark (by decide)
        have hsame : body = u ++ ("*/" ++ v) := by
          apply utf8_injective
          rw [hbody, utf8_append, utf8_append]
          rfl
        rw [hsame, String.toList_append, String.toList_append]
        exact ⟨u.toList, v.toList, by simp⟩
  · exact hn

theorem Gap.startsInert (g : Gap) (s : Bytes) : StartsInert (utf8 g.text ++ s) := by
  cases g with
  | blank c hc =>
      obtain ⟨b, hb, hspace⟩ := utf8_space hc
      rw [Gap.text, hb]
      exact .cons (isInert_of_space hspace) s
  | comment body _ =>
      rw [Gap.text, utf8_comment]
      exact .cons rfl _

theorem scanFrom_gap (g : Gap) (a : Bool) (position : Nat) (s : Bytes) :
    scanFrom a position (utf8 g.text ++ s) =
      scanFrom a (position + (utf8 g.text).length) s := by
  cases g with
  | blank c hc =>
      obtain ⟨b, hb, hspace⟩ := utf8_space hc
      have hform : TokenForm a b ([] ++ s) (.code 1 a) := .space hspace
      rw [Gap.text, hb]
      exact scanFrom_token position hform rfl
  | comment body hopen =>
      have hlength : lengthThrough [0x2A, 0x2F] (utf8 body ++ ([0x2A, 0x2F] ++ s)) =
          (utf8 body).length + 2 := by
        rw [lengthThrough, offsetOf?_body hopen]
        rfl
      have hform : TokenForm a 0x2F (0x2A :: (utf8 body ++ [0x2A, 0x2F]) ++ s)
          (.code (2 + ((utf8 body).length + 2)) a) := by
        rw [← hlength, List.cons_append, List.append_assoc]
        exact .blockComment
      have hcount : 2 + ((utf8 body).length + 2) =
          (0x2A :: (utf8 body ++ [0x2A, 0x2F])).length + 1 := by
        rw [List.length_cons, List.length_append, List.length_cons, List.length_singleton]
        omega
      rw [Gap.text, utf8_comment, List.cons_append, scanFrom_token position hform hcount]
      rw [List.length_cons, ← hcount]
      rfl

theorem scanFrom_gaps (gaps : List Gap) (a : Bool) (s : Bytes) : ∀ position,
    scanFrom a position (utf8 (gapText gaps) ++ s) =
      scanFrom a (position + (utf8 (gapText gaps)).length) s := by
  induction gaps with
  | nil =>
      intro position
      rfl
  | cons g gaps ih =>
      intro position
      rw [utf8_gapText_cons, List.append_assoc, scanFrom_gap, ih, List.length_append,
        Nat.add_assoc]

/-! The scan before a gap. -/

/-- The locations of the literals among tokens, the first of which stands at `position`. -/
def locationsFrom : Nat → List Token → List Location
  | _, [] => []
  | position, t :: ts =>
    (if t.isLiteral then [.span position t.length] else []) ++
      locationsFrom (position + t.length) ts

theorem Reads.scanFrom {z p : Bytes} {a a' : Bool} {ts : List Token} (h : Reads z a p ts a') :
    ∀ position, Query.scanFrom a position (p ++ z) =
      locationsFrom position ts ++ Query.scanFrom a' (position + p.length) z := by
  induction h with
  | done a =>
      intro position
      rfl
  | @token a a' c x p t ts hform ht _ ih =>
      intro position
      have hlength : position + t.length + p.length = position + (c :: (x ++ p)).length := by
        rw [ht, List.length_cons, List.length_append]
        omega
      rw [List.cons_append, List.append_assoc, scanFrom_token position hform ht, ih, hlength,
        locationsFrom, List.append_assoc]

theorem Reads.stop_le {z p : Bytes} {a a' : Bool} {ts : List Token} (h : Reads z a p ts a') :
    ∀ position, ∀ l ∈ locationsFrom position ts, l.stop ≤ position + p.length := by
  induction h with
  | done a =>
      intro position l hl
      cases hl
  | @token a a' c x p t ts _ ht _ ih =>
      intro position l hl
      rw [List.length_cons, List.length_append]
      rcases List.mem_append.1 hl with hl | hl
      · split at hl
        · rw [List.mem_singleton.1 hl, stop_span]
          omega
        · cases hl
      · have := ih (position + t.length) l hl
        omega

/-! The texts of the literals. -/

theorem slice_before {p : Bytes} {i j : Nat} (h : j ≤ p.length) (y : Bytes) :
    slice (p ++ y) i j = slice p i j := by
  rw [slice, slice, ← List.drop_take, ← List.drop_take, List.take_append_of_le_length h]

theorem slice_moved (q s : Bytes) (l : Location) :
    slice (q ++ s) (l.moved q.length).offset (l.moved q.length).stop = slice s l.offset l.stop := by
  have hstop : (l.moved q.length).stop = q.length + l.stop := Nat.add_assoc _ _ _
  rw [hstop, Location.moved, slice, slice, ← List.drop_drop, List.drop_left, Nat.add_sub_add_left]

/-! The scan around a gap. -/

theorem utf8_around (p v s : String) : utf8 (p ++ v ++ s) = utf8 p ++ (utf8 v ++ utf8 s) := by
  rw [utf8_append, utf8_append, List.append_assoc]

section

variable {p : String} {ts : List Token} {a : Bool} {gaps : List Gap}

theorem stop_before (hts : ∀ z, StartsInert z → Reads z false (utf8 p) ts a) :
    ∀ l ∈ locationsFrom 0 ts, l.stop ≤ (utf8 p).length := by
  intro l hl
  have := (hts [] .nil).stop_le 0 l hl
  rwa [Nat.zero_add] at this

/-- The literals of the first part, and those of the second in one context, whatever the gap is. -/
theorem scan_around (hts : ∀ z, StartsInert z → Reads z false (utf8 p) ts a) (hne : gaps ≠ [])
    (s : String) : scan (p ++ gapText gaps ++ s) =
      locationsFrom 0 ts ++ (scanFrom a 0 (utf8 s)).map
        (Location.moved ((utf8 p).length + (utf8 (gapText gaps)).length)) := by
  have hinert : StartsInert (utf8 (gapText gaps) ++ utf8 s) := by
    cases gaps with
    | nil => exact absurd rfl hne
    | cons g gaps =>
        rw [utf8_gapText_cons, List.append_assoc]
        exact g.startsInert _
  rw [scan, utf8_around, (hts _ hinert).scanFrom, scanFrom_gaps, Nat.zero_add, ← scanFrom_moved,
    Nat.add_zero]

theorem literalTexts_around (hts : ∀ z, StartsInert z → Reads z false (utf8 p) ts a)
    (hne : gaps ≠ []) (s : String) : literalTexts (p ++ gapText gaps ++ s) =
      (locationsFrom 0 ts).map (fun l => slice (utf8 p) l.offset l.stop) ++
        (scanFrom a 0 (utf8 s)).map (fun l => slice (utf8 s) l.offset l.stop) := by
  rw [literalTexts, scan_around hts hne, List.map_append, List.map_map, utf8_around]
  congr 1
  · apply List.map_congr_left
    intro l hl
    exact slice_before (stop_before hts l hl) _
  · apply List.map_congr_left
    intro l _
    rw [← List.append_assoc, ← List.length_append]
    exact slice_moved _ _ l

end

/-- Where a token starts at a blank, the blank may be exchanged for blanks and closed comments: the
literals are the same ones, and those behind it stand where the rest of the text stands. -/
theorem scan_gaps {p s : String} {c : Char} {gaps : List Gap}
    (hopen : NoneOpen (p ++ String.singleton c ++ s)) (hc : c ∈ spaces)
    (hstart : (utf8 p).length ∈ tokenStarts (p ++ String.singleton c ++ s)) (hne : gaps ≠ []) :
    literalTexts (p ++ gapText gaps ++ s) = literalTexts (p ++ String.singleton c ++ s) ∧
      ∃ before after : List Location, (∀ l ∈ before, l.stop ≤ (utf8 p).length) ∧
        scan (p ++ String.singleton c ++ s) =
          before ++ after.map (Location.moved ((utf8 p).length + 1)) ∧
        scan (p ++ gapText gaps ++ s) =
          before ++ after.map (Location.moved ((utf8 p).length + (utf8 (gapText gaps)).length)) := by
  obtain ⟨b, hb, -⟩ := utf8_space hc
  have hnonempty : utf8 (String.singleton c) ++ utf8 s ≠ [] := by simp [hb]
  obtain ⟨ts, a, hts⟩ := reads_before hnonempty false (utf8 (p ++ String.singleton c ++ s)) []
    (utf8 p) (utf8_around _ _ _) (by simpa [tokenStarts] using hstart)
    (by simpa [NoneOpen, tokenStarts] using hopen)
  have hone : [Gap.blank c hc] ≠ [] := List.cons_ne_nil _ _
  have hblank : gapText [.blank c hc] = String.singleton c := by
    simp [gapText, Gap.text]
  have hlength : (utf8 (String.singleton c)).length = 1 := congrArg List.length hb
  have hscan := scan_around hts hone s
  have htexts := literalTexts_around hts hone s
  rw [hblank, hlength] at hscan
  rw [hblank] at htexts
  exact ⟨(literalTexts_around hts hne s).trans htexts.symm, _, _, stop_before hts, hscan,
    scan_around hts hne s⟩

/-- The comment holds a quote that is not closed, and the minus behind it stays a sign. -/
theorem scan_gaps_commented :
    NoneOpen ("SELECT 'a'," ++ String.singleton ' ' ++ "-5") ∧
      (utf8 "SELECT 'a',").length ∈ tokenStarts ("SELECT 'a'," ++ String.singleton ' ' ++ "-5") ∧
      literalTexts ("SELECT 'a'," ++ "/*it's -1 **/\n" ++ "-5") =
        literalTexts ("SELECT 'a'," ++ String.singleton ' ' ++ "-5") := by
  have hopen : NoneOpen ("SELECT 'a'," ++ String.singleton ' ' ++ "-5") := by decide +kernel
  have hstart : (utf8 "SELECT 'a',").length ∈
      tokenStarts ("SELECT 'a'," ++ String.singleton ' ' ++ "-5") := by decide +kernel
  have hne : [Gap.comment "it's -1 *" (by decide), Gap.blank '\n' (by decide)] ≠ [] := by simp
  exact ⟨hopen, hstart, (scan_gaps hopen (by decide) hstart hne).1⟩

end PlanFeedback.Query
