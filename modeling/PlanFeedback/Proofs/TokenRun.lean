import PlanFeedback.Proofs.TokenEnd
import PlanFeedback.Proofs.Utf8
import PlanFeedback.Query.Fingerprint

/-!
The scan as a run of tokens. The normal form of a text puts a placeholder for each literal token of
the run and keeps the other tokens.
-/
namespace PlanFeedback.Query

open Text

/-- The bytes that stand for a token in the normal form. -/
def Token.shown (t : Token) (bytes : Bytes) : Bytes :=
  if t.isLiteral then [placeholder] else bytes

/-- The remaining bytes with a placeholder for each literal token. -/
def blank (afterOperand : Bool) : Bytes → Bytes
  | [] => []
  | c :: rest =>
    let token := nextToken afterOperand c rest
    token.shown ((c :: rest).take token.length) ++
      blank token.afterOperand (rest.drop (token.length - 1))
termination_by b => b.length

/-- The first token of some bytes and what it leaves. -/
theorem token_split (a : Bool) (c : UInt8) (rest : Bytes) :
    ∃ x y t, rest = x ++ y ∧ TokenForm a c (x ++ y) t ∧ t.length = x.length + 1 := by
  have hform := tokenForm_nextToken a c rest
  have hpos := hform.pos
  have hle := hform.le
  generalize nextToken a c rest = t at hform hpos hle
  have hsplit := List.take_append_drop (t.length - 1) rest
  refine ⟨_, _, t, hsplit.symm, ?_, ?_⟩
  · rwa [hsplit]
  · rw [List.length_take]
    omega

/-- What holds of no bytes, and of a token and the rest if it holds of the rest, holds of all. -/
theorem token_induction {motive : Bool → Bytes → Prop} (nil : ∀ a, motive a [])
    (token : ∀ a c x y t, TokenForm a c (x ++ y) t → t.length = x.length + 1 →
      motive t.afterOperand y → motive a (c :: (x ++ y))) (a : Bool) (b : Bytes) : motive a b := by
  induction hn : b.length using Nat.strong_induction_on generalizing a b with
  | _ n ih =>
      cases b with
      | nil => exact nil a
      | cons c rest =>
          obtain ⟨x, y, t, rfl, hform, ht⟩ := token_split a c rest
          refine token a c x y t hform ht (ih _ ?_ t.afterOperand y rfl)
          rw [← hn, List.length_cons, List.length_append]
          omega

section Token

variable {a : Bool} {c : UInt8} {x y : Bytes} {t : Token}

theorem scanFrom_token (position : Nat) (h : TokenForm a c (x ++ y) t)
    (ht : t.length = x.length + 1) :
    scanFrom a position (c :: (x ++ y)) =
      (if t.isLiteral then [Location.span position t.length] else []) ++
        scanFrom t.afterOperand (position + t.length) y := by
  have hdrop : (x ++ y).drop (t.length - 1) = y := by
    rw [ht, Nat.add_sub_cancel, List.drop_left]
  rw [scanFrom]
  simp only [h.nextToken, hdrop]
  split <;> rfl

theorem blank_token (h : TokenForm a c (x ++ y) t) (ht : t.length = x.length + 1) :
    blank a (c :: (x ++ y)) = t.shown (c :: x) ++ blank t.afterOperand y := by
  have hdrop : (x ++ y).drop (t.length - 1) = y := by
    rw [ht, Nat.add_sub_cancel, List.drop_left]
  have htake : (c :: (x ++ y)).take t.length = c :: x := by
    rw [ht, List.take_succ_cons, List.take_left]
  rw [blank]
  simp only [h.nextToken, hdrop, htake]

end Token

theorem scanFrom_offset_ge (a : Bool) (b : Bytes) :
    ∀ position, ∀ l ∈ scanFrom a position b, position ≤ l.offset := by
  induction a, b using token_induction with
  | nil a =>
      intro position l hl
      rw [scanFrom] at hl
      cases hl
  | token a c x y t h ht ih =>
      intro position l hl
      rw [scanFrom_token position h ht, List.mem_append] at hl
      rcases hl with hl | hl
      · split at hl
        · rw [List.mem_singleton.1 hl]
          exact Nat.le_refl position
        · cases hl
      · have := ih (position + t.length) l hl
        omega

theorem blank_nil (a : Bool) : blank a [] = [] := by rw [blank]

/-! The normal form of a scanned text. -/

/-- Stretches of a text in order and apart, none empty and each between character boundaries. -/
def Usable (text : Bytes) : (last : Nat) → List Stretch → Prop
  | _, [] => True
  | last, s :: rest =>
    (last ≤ s.start ∧ s.start < s.stop ∧ isBoundary text s.start ∧ isBoundary text s.stop) ∧
      Usable text s.stop rest

theorem Usable.start_ge {text : Bytes} {last : Nat} {ss : List Stretch} (h : Usable text last ss) :
    ∀ s ∈ ss, last ≤ s.start := by
  induction ss generalizing last with
  | nil => simp
  | cons s ss ih =>
      intro r hr
      rcases List.mem_cons.1 hr with rfl | hr
      · exact h.1.1
      · have := ih h.2 r hr
        have := h.1.1
        have := h.1.2.1
        omega

theorem Usable.pairwise {text : Bytes} {last : Nat} {ss : List Stretch} (h : Usable text last ss) :
    ss.Pairwise fun r s => r.start < s.start := by
  induction ss generalizing last with
  | nil => exact List.Pairwise.nil
  | cons s ss ih =>
      apply List.Pairwise.cons _ (ih h.2)
      intro r hr
      have := h.2.start_ge r hr
      have := h.1.2.1
      omega

theorem Usable.mergeSort {text : Bytes} {last : Nat} {ss : List Stretch} (h : Usable text last ss) :
    ss.mergeSort Stretch.precedes = ss := by
  refine List.mergeSort_of_pairwise (h.pairwise.imp fun hrs => ?_)
  simp only [Stretch.precedes, hrs, decide_true, Bool.true_or]

theorem Usable.dropRepeats {text : Bytes} {last : Nat} {ss : List Stretch}
    (h : Usable text last ss) : dropRepeats ss = ss := by
  induction ss generalizing last with
  | nil => rfl
  | cons s ss ih =>
      rw [Query.dropRepeats, ih h.2]
      cases ss with
      | nil => rfl
      | cons r ss =>
          have hne : s.start ≠ r.start := by
            have := h.1.2.1
            have := h.2.1.1
            omega
          simp only [hne, if_false]

theorem Usable.chooseFrom {text : Bytes} {last : Nat} {ss : List Stretch}
    (h : Usable text last ss) : chooseFrom text last ss = ss := by
  induction ss generalizing last with
  | nil => rfl
  | cons s ss ih => rw [Query.chooseFrom, if_pos h.1, ih h.2]

theorem replacedStretches_of_usable {text : Bytes} {locations : List Location}
    (h : Usable text 0 (locations.filterMap (Location.stretch? text))) :
    replacedStretches text locations = locations.filterMap (Location.stretch? text) := by
  simp only [replacedStretches, h.mergeSort, h.dropRepeats, h.chooseFrom]

/-- Locations with the same stretches have the same normal form. -/
theorem normalizeBytes_stretches {text : Bytes} {locations locations' : List Location}
    (h : locations.filterMap (Location.stretch? text) =
      locations'.filterMap (Location.stretch? text)) :
    normalizeBytes text locations = normalizeBytes text locations' := by
  simp only [normalizeBytes, replacedStretches, h]

theorem slice_append {text : Bytes} {i j k : Nat} (hij : i ≤ j) (hjk : j ≤ k) :
    slice text i k = slice text i j ++ slice text j k := by
  have hk : k - i = (j - i) + (k - j) := by omega
  have hj : i + (j - i) = j := by omega
  simp only [slice]
  rw [hk, List.take_add, List.drop_drop, hj]

theorem slice_append_left (pre x y : Bytes) :
    slice (pre ++ (x ++ y)) pre.length (pre.length + x.length) = x := by
  rw [slice, List.drop_left, Nat.add_sub_cancel_left, List.take_left]

theorem LiteralEnd.isText {pre w y : Bytes} (h : LiteralEnd y w) (ht : IsText (pre ++ (w ++ y))) :
    IsText y := by
  obtain ⟨z, d, rfl, hd⟩ : ∃ z d, w = z ++ [d] ∧ d < 0x80 := by
    cases h with
    | plain z hd _ => exact ⟨z, _, rfl, hd⟩
    | @quoted _ z body _ _ _ =>
        exact ⟨z ++ 0x27 :: body, 0x27, by simp, by decide⟩
  rw [List.append_assoc, List.singleton_append, ← List.append_assoc] at ht
  exact (ht.split_ascii hd).2

theorem TokenForm.isText {a : Bool} {c : UInt8} {pre x y : Bytes} {t : Token}
    (h : TokenForm a c (x ++ y) t) (ht : t.length = x.length + 1) (hl : t.isLiteral = true)
    (hp : IsText (pre ++ (c :: x ++ y))) : IsText pre ∧ IsText (c :: x ++ y) ∧ IsText y := by
  obtain ⟨hc, hend⟩ := h.literalEnd ht hl
  obtain ⟨h1, h2⟩ := hp.split (startsFresh_cons.2 (isContinuation_of_lt hc))
  exact ⟨h1, h2, hend.isText hp⟩

/-- What a scan finds in the rest of a text is usable, and replacing it leaves the blanked rest. -/
theorem scanFrom_blank (a : Bool) (b : Bytes) : ∀ (pre : Bytes) (last : Nat), last ≤ pre.length →
    IsText (pre ++ b) →
    Usable (pre ++ b) last
        ((scanFrom a pre.length b).filterMap (Location.stretch? (pre ++ b))) ∧
      substituteFrom (pre ++ b) last
          ((scanFrom a pre.length b).filterMap (Location.stretch? (pre ++ b))) =
        slice (pre ++ b) last pre.length ++ blank a b := by
  induction a, b using token_induction with
  | nil a =>
      intro pre last hlast _
      refine ⟨by simp [scanFrom, Usable], ?_⟩
      have hrest : (pre.drop last).length = pre.length - last := List.length_drop
      simp only [List.append_nil, scanFrom, List.filterMap_nil, substituteFrom, slice, blank_nil]
      rw [← hrest, List.take_length]
  | token a c x y t h ht ih =>
      intro pre last hlast htext
      have hassoc : pre ++ c :: (x ++ y) = (pre ++ c :: x) ++ y := by simp
      have hlen : (pre ++ c :: x).length = pre.length + t.length := by
        rw [List.length_append, List.length_cons, ht]
      have hslice : slice (pre ++ c :: (x ++ y)) pre.length (pre.length + t.length) = c :: x := by
        rw [ht]
        exact slice_append_left pre (c :: x) y
      rw [scanFrom_token pre.length h ht, blank_token h ht]
      cases hl : t.isLiteral with
      | false =>
          have hih := ih (pre ++ c :: x) last (by omega) (hassoc ▸ htext)
          rw [← hassoc, hlen] at hih
          rw [slice_append hlast (Nat.le_add_right _ t.length), hslice] at hih
          simpa [Token.shown, hl] using hih
      | true =>
          obtain ⟨-, hb, hy⟩ := h.isText ht hl htext
          have hih := ih (pre ++ c :: x) _ (Nat.le_refl _) (hassoc ▸ htext)
          rw [← hassoc, hlen] at hih
          have hstretch : Location.stretch? (pre ++ c :: (x ++ y)) (.span pre.length t.length) =
              some ⟨pre.length, pre.length + t.length⟩ := by
            have hmin : pre.length + t.length ≤ (pre ++ c :: (x ++ y)).length := by
              simp only [ht, List.length_append, List.length_cons]
              omega
            have hlt : pre.length < (pre ++ c :: (x ++ y)).length := by
              simp
            simp only [Location.stretch?, Location.span, hlt, if_true, Option.some_or,
              Option.map_some, Nat.min_eq_left hmin]
          have hstart : isBoundary (pre ++ c :: (x ++ y)) pre.length = true :=
            (isBoundary_append _ _).2 hb.startsFresh
          have hstop : isBoundary (pre ++ c :: (x ++ y)) (pre.length + t.length) = true := by
            rw [hassoc, ← hlen]
            exact (isBoundary_append _ _).2 hy.startsFresh
          have hnil : slice (pre ++ c :: (x ++ y)) (pre.length + t.length)
              (pre.length + t.length) = [] := by simp [slice]
          simp only [if_true, List.cons_append, List.nil_append, List.filterMap_cons, hstretch,
            Usable, substituteFrom, hih.2, hnil, Token.shown, hl]
          exact ⟨⟨⟨hlast, by omega, hstart, hstop⟩, hih.1⟩, trivial⟩

theorem normalizeBytes_scan (t : String) :
    normalizeBytes (utf8 t) (scan t) = blank false (utf8 t) := by
  obtain ⟨h, hs⟩ := scanFrom_blank false (utf8 t) [] 0 (Nat.le_refl 0) (isText_utf8 t)
  simp only [List.nil_append, List.length_nil] at h hs
  rw [normalizeBytes, scan, replacedStretches_of_usable h, hs]
  rfl

theorem isText_blank (a : Bool) (b : Bytes) :
    ∀ pre, IsText (pre ++ b) → IsText (pre ++ blank a b) := by
  induction a, b using token_induction with
  | nil a =>
      intro pre h
      rwa [blank_nil]
  | token a c x y t h ht ih =>
      intro pre hp
      rw [blank_token h ht]
      cases hl : t.isLiteral with
      | false =>
          have := ih (pre ++ c :: x) (by simpa using hp)
          simpa [Token.shown, hl] using this
      | true =>
          obtain ⟨hpre, -, hy⟩ := h.isText ht hl hp
          have hmark : IsText [placeholder] := ⟨"?", rfl⟩
          rw [Token.shown, if_pos hl]
          exact hpre.append (hmark.append (ih [] hy))

theorem utf8_normalize (t : String) : utf8 (normalize t (scan t)) = blank false (utf8 t) := by
  rw [normalize, normalizeBytes_scan]
  exact (isText_blank false (utf8 t) [] (isText_utf8 t)).utf8_ofUtf8

/-- The fingerprint of a text taken as one statement is that of its normal form. -/
theorem fingerprint_new (t : String) (locations : List Location) :
    (Source.new t locations).fingerprint? = some (.ofNormalized (normalize t locations)) := by
  have hstart : isBoundary (utf8 t) 0 = true :=
    (isBoundary_append [] (utf8 t)).2 (isText_utf8 t).startsFresh
  have hstop : isBoundary (utf8 t) (utf8 t).length = true := by
    have := (isBoundary_append (utf8 t) []).2 startsFresh_nil
    rwa [List.append_nil] at this
  have hstatement : (Source.new t locations).statement? = some (utf8 t) := by
    simp [Source.statement?, Source.new, slice?, hstart, hstop, slice]
  have hrelative : (Source.new t locations).relative locations = locations := by
    simp [Source.relative, Source.new]
  simp only [Source.fingerprint?, hstatement, Option.bind_eq_bind, Option.bind_some]
  simp only [Source.new, Option.bind_some] at hrelative ⊢
  rw [hrelative]
  rfl

end PlanFeedback.Query
