import PlanFeedback.Proofs.TokenRun

/-!
Blanked text. The placeholders that are put in close no quote, make no dollar quote and go on with
no number, so that the tokens which were kept may be read as before.
-/
namespace PlanFeedback.Query

open Text

/-- The second bytes are the first ones with placeholders in the place of some parts. -/
inductive Blanked : Bytes → Bytes → Prop where
  | nil : Blanked [] []
  | keep (c : UInt8) {b z : Bytes} : Blanked b z → Blanked (c :: b) (c :: z)
  | hole {w b z : Bytes} : w ≠ [] → Blanked b z → Blanked (w ++ b) (placeholder :: z)

theorem Blanked.append (w : Bytes) {b z : Bytes} (h : Blanked b z) : Blanked (w ++ b) (w ++ z) := by
  induction w with
  | nil => exact h
  | cons c w ih => exact .keep c ih

theorem blanked_blank (a : Bool) (b : Bytes) : Blanked b (blank a b) := by
  induction a, b using token_induction with
  | nil a =>
      rw [blank_nil]
      exact .nil
  | token a c x y t h ht ih =>
      rw [blank_token h ht, Token.shown]
      split
      · exact .hole (List.cons_ne_nil c x) ih
      · exact ih.append (c :: x)

theorem Blanked.digit {b z : Bytes} (h : Blanked b z) (hz : startsDigit z = true) :
    startsDigit b = true := by
  cases h with
  | nil => cases hz
  | keep c h => exact hz
  | hole => cases hz

theorem Blanked.quote {b z : Bytes} (h : Blanked b z) (hz : startsQuote z = true) :
    startsQuote b = true := by
  cases h with
  | nil => cases hz
  | keep c h => exact hz
  | hole => cases hz

theorem Blanked.signed_digit {b z : Bytes} (h : Blanked b z)
    (hz : startsDigit (z.drop (signLength z)) = true) :
    startsDigit (b.drop (signLength b)) = true := by
  cases h with
  | nil => cases hz
  | keep c h =>
      simp only [signLength] at hz ⊢
      split
      · rename_i hc
        rw [if_pos hc] at hz
        exact h.digit hz
      · rename_i hc
        rw [if_neg hc] at hz
        exact hz
  | hole => cases hz

theorem Blanked.follows {b z : Bytes} (h : Blanked b z) : Follows b z := by
  cases h with
  | nil => exact Follows.refl []
  | @keep c b z h =>
      refine ⟨fun d hd => Or.inr ⟨c, rfl, Or.inl (Option.some.inj hd)⟩, ?_, ?_, ?_⟩
      · intro hn
        simp only [startsNumber, Bool.or_eq_true, Bool.and_eq_true] at hn ⊢
        exact hn.imp_right (And.imp_right h.digit)
      · intro he
        rw [exponentLength_ne_zero] at he ⊢
        exact ⟨he.1, h.signed_digit he.2⟩
      · intro hu
        simp only [startsUnicodeQuote, Bool.and_eq_true] at hu ⊢
        exact ⟨hu.1, h.quote hu.2⟩
  | hole hw h =>
      refine ⟨fun d hd => Or.inl ?_, ?_, ?_, ?_⟩
      · obtain rfl := Option.some.inj hd
        rfl
      · intro hn; cases hn
      · intro he
        rw [exponentLength_ne_zero] at he
        rcases he.1 with he | he <;> cases he
      · intro hu; cases hu

theorem blank_follows (a : Bool) (b : Bytes) : Follows b (blank a b) := (blanked_blank a b).follows

/-! Quotes. -/

theorem closingLength?_eq_none_plain {escapes : Bool} {d : UInt8} (b : Bytes) (hd : IsPlain d) :
    closingLength? escapes (d :: b) = none ↔ closingLength? escapes b = none := by
  rw [closingLength?_plain b hd.1 (by simp [hd.2]), Option.map_eq_none_iff]

/-- A quote that is not closed is not closed behind a plain byte either, and what follows that byte
may be exchanged for anything that closes no quote. -/
theorem closingLength?_sync {escapes : Bool} {d : UInt8} {b : Bytes} (hd : IsPlain d) :
    (z : Bytes) → closingLength? escapes (z ++ d :: b) = none →
      closingLength? escapes b = none ∧
        ∀ b', closingLength? escapes b' = none → closingLength? escapes (z ++ d :: b') = none
  | [], h => by
      rw [List.nil_append, closingLength?_eq_none_plain b hd] at h
      exact ⟨h, fun b' h' => (closingLength?_eq_none_plain b' hd).2 h'⟩
  | [c], h => by
      by_cases hc : c = 0x27
      · subst hc
        have hq : startsQuote (d :: b) = false := by simp [startsQuote, hd.1]
        rw [List.singleton_append, closingLength?_last escapes hq] at h
        cases h
      by_cases he : (escapes && c == 0x5C) = true
      · simp only [Bool.and_eq_true, beq_iff_eq] at he
        obtain ⟨rfl, rfl⟩ := he
        simp only [List.singleton_append, closingLength?_hidden, Option.map_eq_none_iff] at h ⊢
        exact ⟨h, fun b' h' => h'⟩
      · rw [Bool.not_eq_true] at he
        simp only [List.singleton_append, closingLength?_plain _ hc he, Option.map_eq_none_iff,
          closingLength?_eq_none_plain _ hd] at h ⊢
        exact ⟨h, fun b' h' => h'⟩
  | c :: c' :: z, h => by
      by_cases hc : c = 0x27
      · subst hc
        by_cases hc' : c' = 0x27
        · subst hc'
          simp only [List.cons_append, closingLength?_doubled, Option.map_eq_none_iff] at h ⊢
          exact closingLength?_sync hd z h
        · have hq : startsQuote (c' :: (z ++ d :: b)) = false := by simp [startsQuote, hc']
          rw [List.cons_append, List.cons_append, closingLength?_last escapes hq] at h
          cases h
      by_cases he : (escapes && c == 0x5C) = true
      · simp only [Bool.and_eq_true, beq_iff_eq] at he
        obtain ⟨rfl, rfl⟩ := he
        simp only [List.cons_append, closingLength?_hidden, Option.map_eq_none_iff] at h ⊢
        exact closingLength?_sync hd z h
      · rw [Bool.not_eq_true] at he
        rw [List.cons_append, closingLength?_plain _ hc he, Option.map_eq_none_iff] at h
        obtain ⟨h1, h2⟩ := closingLength?_sync hd (c' :: z) h
        refine ⟨h1, fun b' h' => ?_⟩
        rw [List.cons_append, closingLength?_plain _ hc he, Option.map_eq_none_iff]
        exact h2 b' h'

theorem closingLength?_of_plains {escapes : Bool} {z b : Bytes} (hz : ∀ c ∈ z, IsPlain c)
    (h : closingLength? escapes (z ++ b) = none) : closingLength? escapes b = none := by
  induction z with
  | nil => exact h
  | cons c z ih =>
      rw [List.cons_append, closingLength?_eq_none_plain _ (hz c List.mem_cons_self)] at h
      exact ih (fun d hd => hz d (List.mem_cons_of_mem c hd)) h

/-- Where quotes are never closed, a quote opens a string that is nothing but quotes: it is closed
in every mode, and what follows it closes no more than the whole did. -/
theorem closingLength?_opened : (b : Bytes) → closingLength? false (0x27 :: b) = none →
    ∃ n, ∀ escapes, closingLength? escapes b = some n ∧
      (closingLength? escapes (0x27 :: b) = none → closingLength? escapes (b.drop n) = none)
  | [], h => by cases h
  | [c], h => by
      by_cases hc : c = 0x27
      · subst hc
        refine ⟨1, fun escapes => ⟨closingLength?_last escapes rfl, fun _ => ?_⟩⟩
        simp [closingLength?]
      · rw [closingLength?_last false (by simp [startsQuote, hc])] at h
        cases h
  | c :: d :: b, h => by
      by_cases hc : c = 0x27
      · subst hc
        by_cases hd : d = 0x27
        · subst hd
          rw [closingLength?_doubled, Option.map_eq_none_iff] at h
          obtain ⟨n, hn⟩ := closingLength?_opened b h
          refine ⟨n + 2, fun escapes => ⟨?_, fun he => ?_⟩⟩
          · rw [closingLength?_doubled, (hn escapes).1]
            rfl
          · rw [closingLength?_doubled, Option.map_eq_none_iff] at he
            simpa using (hn escapes).2 he
        · have hq : startsQuote (d :: b) = false := by simp [startsQuote, hd]
          refine ⟨1, fun escapes => ⟨closingLength?_last escapes hq, fun he => ?_⟩⟩
          rwa [closingLength?_doubled, Option.map_eq_none_iff] at he
      · rw [closingLength?_last false (by simp [startsQuote, hc])] at h
        cases h

/-- A token with a plain last byte lets a search for a closing quote through, also when the search
begins at the second byte of the token. -/
theorem closingLength?_token {escapes : Bool} {c d : UInt8} {x z y : Bytes} (hd : IsPlain d)
    (hz : c :: x = z ++ [d]) :
    (closingLength? escapes (c :: (x ++ y)) = none → closingLength? escapes y = none ∧
        ∀ y', closingLength? escapes y' = none → closingLength? escapes (c :: (x ++ y')) = none) ∧
      (closingLength? escapes (x ++ y) = none → closingLength? escapes y = none ∧
        ∀ y', closingLength? escapes y' = none → closingLength? escapes (x ++ y') = none) := by
  have hw : ∀ y', c :: (x ++ y') = z ++ d :: y' := by
    intro y'
    rw [← List.cons_append, hz, List.append_assoc, List.singleton_append]
  constructor
  · intro h
    rw [hw] at h
    simpa only [hw] using closingLength?_sync hd z h
  · intro h
    cases z with
    | nil =>
        obtain ⟨rfl, rfl⟩ := List.cons.inj hz
        exact ⟨h, fun y' h' => h'⟩
    | cons e z =>
        rw [List.cons_append, List.cons.injEq] at hz
        obtain ⟨rfl, rfl⟩ := hz
        simp only [List.append_assoc, List.singleton_append] at h ⊢
        exact closingLength?_sync hd z h

/-- What a string literal leaves is not closed if the whole is not. -/
theorem closingLength?_literal {c : UInt8} {x z body y : Bytes} {e : Bool}
    (hw : c :: x = z ++ 0x27 :: (body ++ [0x27])) (hz : ∀ b ∈ z, IsPlain b)
    (hbody : QuotedBody e body) (hy : startsQuote y = false)
    (h : closingLength? false (c :: (x ++ y)) = none) (escapes : Bool) :
    (closingLength? escapes (c :: (x ++ y)) = none → closingLength? escapes y = none) ∧
      (closingLength? escapes (x ++ y) = none → closingLength? escapes y = none) := by
  have hsplit : c :: (x ++ y) = z ++ 0x27 :: (body ++ 0x27 :: y) := by
    rw [← List.cons_append, hw]
    simp
  rw [hsplit] at h
  obtain ⟨n, hn⟩ := closingLength?_opened _ (closingLength?_of_plains hz h)
  obtain rfl : n = body.length + 1 := by
    have := (hn e).1
    rw [hbody.closes hy] at this
    exact (Option.some.inj this).symm
  have hdrop : (body ++ 0x27 :: y).drop (body.length + 1) = y := by
    rw [← List.singleton_append, ← List.append_assoc, List.drop_left' (by simp)]
  simp only [hdrop] at hn
  constructor
  · intro he
    rw [hsplit] at he
    exact (hn escapes).2 (closingLength?_of_plains hz he)
  · intro he
    cases z with
    | nil =>
        obtain ⟨-, rfl⟩ := List.cons.inj hw
        rw [List.append_assoc, List.singleton_append, (hn escapes).1] at he
        cases he
    | cons d z =>
        rw [List.cons_append, List.cons.injEq] at hw
        obtain ⟨rfl, rfl⟩ := hw
        rw [List.append_assoc, List.cons_append, List.append_assoc, List.singleton_append] at he
        refine (hn escapes).2 (closingLength?_of_plains (z := z) ?_ he)
        intro b hb
        exact hz b (List.mem_cons_of_mem c hb)

/-- Blanking closes no quote. The search may begin one byte late, as it does behind a backslash. -/
theorem closingLength?_blank (a : Bool) (b : Bytes) : closingLength? false b = none →
    ∀ escapes,
      (closingLength? escapes b = none → closingLength? escapes (blank a b) = none) ∧
        (closingLength? escapes (b.drop 1) = none →
          closingLength? escapes ((blank a b).drop 1) = none) := by
  induction a, b using token_induction with
  | nil a =>
      intro h escapes
      rw [blank_nil]
      exact ⟨id, id⟩
  | token a c x y t h ht ih =>
      intro hopen escapes
      rw [blank_token h ht, Token.shown]
      cases hl : t.isLiteral with
      | true =>
          have hmark : IsPlain placeholder := by constructor <;> decide
          rw [if_pos rfl, List.singleton_append, closingLength?_eq_none_plain _ hmark,
            List.drop_succ_cons, List.drop_succ_cons, List.drop_zero, List.drop_zero]
          obtain ⟨-, hend⟩ := h.literalEnd ht hl
          generalize hw : c :: x = w at hend
          cases hend with
          | plain z _ hd =>
              have hih := (ih ((closingLength?_token hd hw).1 hopen).1 escapes).1
              exact ⟨fun he => hih ((closingLength?_token hd hw).1 he).1,
                fun he => hih ((closingLength?_token hd hw).2 he).1⟩
          | quoted hz hbody hy =>
              have hlit := closingLength?_literal hw hz hbody hy hopen
              have hih := (ih ((hlit false).1 hopen) escapes).1
              exact ⟨fun he => hih ((hlit escapes).1 he), fun he => hih ((hlit escapes).2 he)⟩
      | false =>
          rw [if_neg Bool.false_ne_true, List.cons_append, List.drop_succ_cons,
            List.drop_succ_cons, List.drop_zero, List.drop_zero]
          by_cases hy : y = []
          · subst hy
            rw [blank_nil]
            exact ⟨id, id⟩
          rcases h.codeEnd hy ht hl with ⟨z, d, hw, hd⟩ | ⟨rfl, rfl⟩ | ⟨rfl, rfl, hc⟩
          · have hih := (ih ((closingLength?_token hd hw).1 hopen).1 escapes).1
            constructor
            · intro he
              obtain ⟨h1, h2⟩ := (closingLength?_token hd hw).1 he
              exact h2 _ (hih h1)
            · intro he
              obtain ⟨h1, h2⟩ := (closingLength?_token hd hw).2 he
              exact h2 _ (hih h1)
          · have hplain : ∀ b, closingLength? false (0x5C :: b) = none ↔
                closingLength? false b = none := by
              intro b
              rw [closingLength?_plain b (by decide) rfl, Option.map_eq_none_iff]
            have hih := ih ((hplain y).1 hopen) escapes
            refine ⟨fun he => ?_, hih.1⟩
            cases escapes with
            | false => exact (hplain _).2 (hih.1 ((hplain y).1 he))
            | true =>
                cases y with
                | nil => exact absurd rfl hy
                | cons d y =>
                    rw [List.nil_append, closingLength?_hidden, Option.map_eq_none_iff] at he
                    rw [List.nil_append]
                    have hdrop := hih.2 he
                    cases hb : blank t.afterOperand (d :: y) with
                    | nil => rfl
                    | cons e z =>
                        rw [hb] at hdrop
                        rw [closingLength?_hidden, Option.map_eq_none_iff]
                        exact hdrop
          · obtain ⟨n, hn⟩ := closingLength?_opened y hopen
            rw [(hn false).1] at hc
            cases hc

/-! Dollar quotes. -/

/-- A part without a placeholder that is left has been there before, at least as far behind. -/
theorem Blanked.split_left {b z w : Bytes} (h : Blanked b (w ++ z)) (hw : placeholder ∉ w) :
    ∃ b', b = w ++ b' ∧ Blanked b' z := by
  induction w generalizing b with
  | nil => exact ⟨b, rfl, h⟩
  | cons c w ih =>
      cases h with
      | keep _ h =>
          obtain ⟨b', rfl, hb'⟩ := ih h (fun hm => hw (List.mem_cons_of_mem c hm))
          exact ⟨b', rfl, hb'⟩
      | hole => exact absurd List.mem_cons_self hw

theorem Blanked.split_right {b z : Bytes} (x : Bytes) (h : Blanked b (x ++ z)) :
    ∃ x' b', b = x' ++ b' ∧ Blanked b' z := by
  induction x generalizing b with
  | nil => exact ⟨[], b, rfl, h⟩
  | cons c x ih =>
      cases h with
      | keep _ h =>
          obtain ⟨x', b', rfl, hb'⟩ := ih h
          exact ⟨c :: x', b', rfl, hb'⟩
      | @hole w b _ _ h =>
          obtain ⟨x', b', rfl, hb'⟩ := ih h
          exact ⟨w ++ x', b', by rw [List.append_assoc], hb'⟩

theorem isTagByte_ne_placeholder {b : UInt8} (h : isTagByte b = true) : b ≠ placeholder := by
  rintro rfl
  cases h

/-- Blanking makes no dollar quote. -/
theorem Blanked.dollar {b z : Bytes} (h : Blanked b z) (hb : dollarQuotedLength? b = none) :
    dollarQuotedLength? z = none := by
  by_contra hz
  obtain ⟨n, hn⟩ := Option.ne_none_iff_exists'.1 hz
  obtain ⟨tag, body, y, rfl, ht, hd, -, -⟩ := dollarQuoted_split hn
  have htag : placeholder ∉ tag := fun hm => isTagByte_ne_placeholder (ht _ hm) rfl
  have hmark : placeholder ∉ 0x24 :: tag ++ [0x24] := by
    simp only [List.mem_append, List.mem_cons, List.not_mem_nil, or_false, htag]
    decide
  rw [List.append_assoc, ← List.singleton_append, ← List.append_assoc] at h
  obtain ⟨b₁, rfl, h₁⟩ := h.split_left (w := tag ++ [0x24]) (by
    simp only [List.mem_append, List.mem_cons, List.not_mem_nil, or_false, htag]
    decide)
  obtain ⟨body', b₂, rfl, h₂⟩ := h₁.split_right body
  obtain ⟨b₃, rfl, -⟩ := h₂.split_left hmark
  rw [List.append_assoc, List.singleton_append] at hb
  exact dollarQuotedLength?_of_mark ht hd body' b₃ hb

end PlanFeedback.Query
