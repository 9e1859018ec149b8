import PlanFeedback.Proofs.Grammar
import PlanFeedback.Proofs.Indexed
import PlanFeedback.Proofs.TokenRun

/-!
The stretches that a scan reports. Each is a whole literal token as it is read at its place, they lie
apart and in order, and the normal form is the text with each of them replaced.
-/
namespace PlanFeedback.Query

open Text

def Location.stop (l : Location) : Nat := l.offset + l.length?.getD 0

/-- `n` bytes at an offset, not none, are whole characters and the literal token that is read
there. -/
structure LiteralAt (text : Bytes) (offset n : Nat) : Prop where
  pos : 0 < n
  inside : offset + n ≤ text.length
  start : isBoundary text offset = true
  stop : isBoundary text (offset + n) = true
  token : literalLength? (text.drop offset) = some n

/-- A location tells the place and the length of a literal token. -/
def Location.IsLiteral (text : Bytes) (l : Location) : Prop :=
  ∃ n, l.length? = some n ∧ LiteralAt text l.offset n

/-- What is left of the byte at an index when some stretches are replaced: the first byte of a
stretch becomes the placeholder and the others vanish. -/
def maskByte (spans : List Location) (byte : UInt8 × Nat) : Bytes :=
  match spans.find? fun l => l.offset ≤ byte.2 && byte.2 < l.stop with
  | none => [byte.1]
  | some l => if l.offset = byte.2 then [placeholder] else []

/-- The text with a placeholder for each of some stretches, and every other byte kept. -/
def mask (spans : List Location) (text : Bytes) : Bytes := text.zipIdx.flatMap (maskByte spans)

/-! Where a literal token ends. -/

/-- Behind a literal token, wherever it was read, a character starts. -/
theorem LiteralForm.startsFresh {c : UInt8} {pre x y : Bytes}
    (h : LiteralForm c (x ++ y) (x.length + 1)) (ht : IsText (pre ++ (c :: x ++ y))) :
    StartsFresh y := by
  by_cases ho : opensLiteral (c :: (x ++ y)) = true
  · exact ((h.end ho).2.isText ht).startsFresh
  have hnumber : ∀ {x : Bytes}, (∀ d ∈ c :: x, isNumberByte d = true) →
      IsText (pre ++ (c :: x ++ y)) → StartsFresh y :=
    fun hx ht => ((LiteralEnd.of_number y hx).isText ht).startsFresh
  generalize hr : x ++ y = rest at h ho
  generalize hn : x.length + 1 = n at h
  cases h with
  | quoted | marker | dollar => exact absurd rfl ho
  | signed hc h =>
      subst hr
      have hx : numberLength (x ++ y) = x.length := by omega
      refine hnumber (List.forall_mem_cons.2 ⟨?_, fun d hd => ?_⟩) ht
      · rcases hc with rfl | rfl <;> rfl
      · exact isNumberByte_of_mem (b := x ++ y) (by rwa [hx, List.take_left])
  | number h =>
      subst hr
      have hx : numberLength (c :: x ++ y) = (c :: x).length := hn.symm
      exact hnumber (fun d hd => isNumberByte_of_mem (b := c :: x ++ y)
        (by rwa [hx, List.take_left])) ht
  | escape hc | string hc =>
      exact absurd (by simp [opensLiteral, isStringMark_singleton, startsQuote, hc]) ho
  | unicode hc =>
      exact absurd (by simp [opensLiteral, isStringMark_singleton, startsUnicodeQuote, startsQuote,
        hc]) ho
  | word hw hm =>
      subst hr
      have hx : wordLength (c :: x ++ y) = (c :: x).length := hn.symm
      intro d hd
      obtain ⟨w, rfl⟩ : ∃ w, y = d :: w := by
        cases y with
        | nil => cases hd
        | cons e w => exact ⟨w, by rw [Option.some.inj hd]⟩
      rw [Bool.eq_false_iff]
      intro hcont
      rw [isContinuation, Bool.and_eq_true] at hcont
      have hword : IsWord (c :: x ++ [d]) := by
        intro e he
        rcases List.mem_append.1 he with he | he
        · rw [← isWordByte_iff]
          exact isWordByte_of_mem (b := c :: x ++ d :: w) (by rwa [hx, List.take_left])
        · rw [← isWordByte_iff, List.mem_singleton.1 he]
          exact isWordStart_isWordByte (by simp only [isWordStart, hcont.1, Bool.or_true])
      have hle := (longest_word (c :: x ++ d :: w)).longest (c :: x ++ [d]) ⟨w, by simp⟩ hword
      rw [← wordLength, hx, List.length_append, List.length_singleton] at hle
      omega

/-- A literal token, wherever it is read in a text, is not empty and ends between two characters. -/
theorem literalLength?_stop {pre b : Bytes} {n : Nat} (ht : IsText (pre ++ b))
    (h : literalLength? b = some n) :
    1 ≤ n ∧ n ≤ b.length ∧ isBoundary (pre ++ b) (pre.length + n) = true := by
  cases b with
  | nil => cases h
  | cons c rest =>
      have hform := literalLength?_eq_some_iff.1 h
      obtain ⟨m, rfl⟩ : ∃ m, n = m + 1 := ⟨n - 1, (Nat.succ_pred_eq_of_pos hform.pos).symm⟩
      have hle := Nat.le_of_succ_le_succ hform.le
      obtain ⟨x, y, rfl, rfl⟩ : ∃ x y, rest = x ++ y ∧ x.length = m :=
        ⟨rest.take m, rest.drop m, (List.take_append_drop m rest).symm, List.length_take_of_le hle⟩
      refine ⟨Nat.succ_pos _, hform.le, ?_⟩
      have hbound := (isBoundary_append (pre ++ c :: x) y).2 (hform.startsFresh ht)
      rwa [List.append_assoc, List.cons_append, List.length_append, List.length_cons] at hbound

theorem literalLengthAt?_stop {text : String} {offset n : Nat}
    (h : literalLengthAt? text offset = some n) :
    1 ≤ n ∧ offset + n ≤ (utf8 text).length ∧ isBoundary (utf8 text) (offset + n) = true := by
  have hlt : offset < (utf8 text).length := by
    by_contra hge
    rw [literalLengthAt?, List.drop_eq_nil_of_le (Nat.not_lt.1 hge)] at h
    cases h
  have hsplit := List.take_append_drop offset (utf8 text)
  have hlength : ((utf8 text).take offset).length = offset :=
    List.length_take_of_le (Nat.le_of_lt hlt)
  obtain ⟨hpos, hle, hbound⟩ := literalLength?_stop (hsplit ▸ isText_utf8 text) h
  rw [hsplit, hlength] at hbound
  rw [List.length_drop] at hle
  exact ⟨hpos, by omega, hbound⟩

/-! The tokens of a scan. -/

/-- A literal token of the scan is the literal that is read at its place. -/
theorem TokenForm.literalLength {a : Bool} {c : UInt8} {rest : Bytes} {t : Token}
    (h : TokenForm a c rest t) (hl : t.isLiteral = true) :
    literalLength? (c :: rest) = some t.length := by
  cases h with
  | lineComment | blockComment | name | stray | word | space | other => cases hl
  | negative _ hn => exact (LiteralForm.signed (Or.inl rfl) hn).length
  | opened _ hn => exact hn
  | number hn => exact (LiteralForm.number hn).length

theorem stop_span (offset n : Nat) : (Location.span offset n).stop = offset + n := rfl

theorem scanFrom_isLiteral (a : Bool) (b : Bytes) : ∀ pre, IsText (pre ++ b) →
    ∀ l ∈ scanFrom a pre.length b, l.IsLiteral (pre ++ b) := by
  induction a, b using token_induction with
  | nil a =>
      intro pre _ l hl
      rw [scanFrom] at hl
      cases hl
  | token a c x y t h ht ih =>
      intro pre htext l hl
      have hassoc : pre ++ c :: (x ++ y) = (pre ++ c :: x) ++ y := by simp
      have hlen : (pre ++ c :: x).length = pre.length + t.length := by
        rw [List.length_append, List.length_cons, ht]
      rw [scanFrom_token _ h ht, List.mem_append] at hl
      rcases hl with hl | hl
      · split at hl
        · rename_i hlit
          rw [List.mem_singleton.1 hl]
          have hlength := h.literalLength hlit
          obtain ⟨hpos, hle, hstop⟩ := literalLength?_stop htext hlength
          obtain ⟨-, hb, -⟩ := h.isText ht hlit htext
          refine ⟨t.length, rfl, hpos, ?_, (isBoundary_append _ _).2 hb.startsFresh, hstop, ?_⟩
          · rw [List.length_append]
            exact Nat.add_le_add_left hle _
          · exact (congrArg literalLength? List.drop_left).trans hlength
        · cases hl
      · rw [← hlen] at hl
        rw [hassoc] at htext ⊢
        exact ih (pre ++ c :: x) htext l hl

theorem scanFrom_pairwise (a : Bool) (b : Bytes) : ∀ position,
    (scanFrom a position b).Pairwise fun l m => l.stop ≤ m.offset := by
  induction a, b using token_induction with
  | nil a =>
      intro position
      rw [scanFrom]
      exact List.Pairwise.nil
  | token a c x y t h ht ih =>
      intro position
      rw [scanFrom_token _ h ht]
      split
      · refine List.Pairwise.cons (fun m hm => ?_) (ih _)
        exact scanFrom_offset_ge _ _ _ m hm
      · exact ih _

/-! The masked text. -/

theorem maskByte_before {spans : List Location} {byte : UInt8 × Nat}
    (h : ∀ l ∈ spans, byte.2 < l.offset) : maskByte spans byte = [byte.1] := by
  have hnone : spans.find? (fun l => l.offset ≤ byte.2 && byte.2 < l.stop) = none := by
    rw [List.find?_eq_none]
    intro l hl
    have hlt := h l hl
    simp only [Bool.and_eq_true, decide_eq_true_eq, not_and]
    omega
  rw [maskByte, hnone]

theorem maskByte_behind {l : Location} {spans : List Location} {byte : UInt8 × Nat}
    (h : l.stop ≤ byte.2) : maskByte (l :: spans) byte = maskByte spans byte := by
  have hno : (decide (l.offset ≤ byte.2) && decide (byte.2 < l.stop)) = false := by
    rw [Bool.and_eq_false_iff, decide_eq_false_iff_not, decide_eq_false_iff_not]
    omega
  simp only [maskByte, List.find?_cons, hno]

theorem maskByte_within {l : Location} {spans : List Location} {byte : UInt8 × Nat}
    (h : l.offset ≤ byte.2 ∧ byte.2 < l.stop) : maskByte (l :: spans) byte =
      if l.offset = byte.2 then [placeholder] else [] := by
  have hyes : (decide (l.offset ≤ byte.2) && decide (byte.2 < l.stop)) = true := by
    rw [Bool.and_eq_true, decide_eq_true_eq, decide_eq_true_eq]
    exact h
  simp only [maskByte, List.find?_cons, hyes]

theorem flatMap_maskByte_before {spans : List Location} {x : Bytes} {position : Nat}
    (h : ∀ l ∈ spans, position + x.length ≤ l.offset) :
    (x.zipIdx position).flatMap (maskByte spans) = x := by
  induction x generalizing position with
  | nil => rfl
  | cons c x ih =>
      rw [List.length_cons] at h
      rw [List.zipIdx_cons, List.flatMap_cons, ih fun l hl => by have := h l hl; omega,
        maskByte_before fun l hl => by have := h l hl; omega]
      rfl

/-- Of the bytes of a stretch behind its first one nothing is left. -/
theorem flatMap_maskByte_within {l : Location} {spans : List Location} {x : Bytes} {position : Nat}
    (hstart : l.offset < position) (hstop : position + x.length ≤ l.stop) :
    (x.zipIdx position).flatMap (maskByte (l :: spans)) = [] := by
  induction x generalizing position with
  | nil => rfl
  | cons c x ih =>
      rw [List.length_cons] at hstop
      rw [List.zipIdx_cons, List.flatMap_cons, ih (by omega) (by omega),
        maskByte_within ⟨Nat.le_of_lt hstart, by change position < _; omega⟩]
      rw [if_neg (Nat.ne_of_lt hstart)]
      rfl

theorem flatMap_maskByte_behind {l : Location} {spans : List Location} {x : Bytes} {position : Nat}
    (h : l.stop ≤ position) :
    (x.zipIdx position).flatMap (maskByte (l :: spans)) =
      (x.zipIdx position).flatMap (maskByte spans) := by
  induction x generalizing position with
  | nil => rfl
  | cons c x ih =>
      rw [List.zipIdx_cons, List.flatMap_cons, List.flatMap_cons, ih (by omega),
        maskByte_behind h]

theorem mask_scanFrom (a : Bool) (b : Bytes) : ∀ position,
    (b.zipIdx position).flatMap (maskByte (scanFrom a position b)) = blank a b := by
  induction a, b using token_induction with
  | nil a =>
      intro position
      rw [blank_nil]
      rfl
  | token a c x y t h ht ih =>
      intro position
      have hrest := ih (position + t.length)
      have hlater := scanFrom_offset_ge t.afterOperand y (position + t.length)
      have hlen : position + (c :: x).length = position + t.length := by rw [List.length_cons, ht]
      have hsplit : (c :: (x ++ y)).zipIdx position =
          (c :: x).zipIdx position ++ y.zipIdx (position + t.length) := by
        rw [← List.cons_append, List.zipIdx_append, hlen]
      rw [scanFrom_token _ h ht, blank_token h ht, hsplit, List.flatMap_append, Token.shown]
      split
      · rename_i hl
        have hstop := stop_span position t.length
        have hfirst : ∀ spans, maskByte (.span position t.length :: spans) (c, position) =
            [placeholder] := fun spans =>
          (maskByte_within ⟨Nat.le_refl _, Nat.lt_add_of_pos_right h.pos⟩).trans (if_pos rfl)
        rw [List.singleton_append, flatMap_maskByte_behind (Nat.le_of_eq hstop), hrest,
          List.zipIdx_cons, List.flatMap_cons, hfirst,
          flatMap_maskByte_within (Nat.lt_succ_self position) (by rw [hstop, ht]; omega)]
        rfl
      · rw [List.nil_append, hrest, flatMap_maskByte_before (by rwa [hlen])]

theorem stretch?_token {text : Bytes} {l : Location} (h : l.IsLiteral text) :
    (Location.token l.offset).stretch? text = l.stretch? text := by
  obtain ⟨n, hlength, h⟩ := h
  simp only [Location.stretch?, Location.token, Option.none_or, hlength, Option.some_or, h.token]

/-- A location without a length means the same as the literal found there. -/
theorem normalizeBytes_tokens {text : Bytes} {locations : List Location}
    (h : ∀ l ∈ locations, l.IsLiteral text) :
    normalizeBytes text (locations.map fun l => .token l.offset) =
      normalizeBytes text locations := by
  apply normalizeBytes_stretches
  rw [List.filterMap_map]
  exact List.filterMap_congr fun l hl => stretch?_token (h l hl)

/-- What a scan reports are whole literal tokens, apart and in order; the normal form is the text with
each of them masked, also where their lengths are left out; and the reading of a token at any offset
keeps inside the text and ends between two characters. -/
theorem scan_spans (text : String) :
    (∀ l ∈ scan text, l.IsLiteral (utf8 text)) ∧
      (scan text).Pairwise (fun l m => l.stop ≤ m.offset) ∧
      utf8 (normalize text (scan text)) = mask (scan text) (utf8 text) ∧
      normalize text ((scan text).map fun l => .token l.offset) = normalize text (scan text) ∧
      ∀ offset, Indexed.literalAt (utf8 text) offset = .ok (literalLengthAt? text offset) ∧
        ∀ n, literalLengthAt? text offset = some n →
          1 ≤ n ∧ offset + n ≤ (utf8 text).length ∧
            isBoundary (utf8 text) (offset + n) = true := by
  have hliteral : ∀ l ∈ scan text, l.IsLiteral (utf8 text) :=
    scanFrom_isLiteral false (utf8 text) [] (isText_utf8 text)
  refine ⟨hliteral, scanFrom_pairwise false (utf8 text) 0, ?_, ?_, fun offset => ⟨?_, ?_⟩⟩
  · rw [utf8_normalize]
    exact (mask_scanFrom false (utf8 text) 0).symm
  · rw [normalize, normalizeBytes_tokens hliteral, normalize]
  · exact Indexed.literalAt_eq offset
  · exact fun _ h => literalLengthAt?_stop h

end PlanFeedback.Query
