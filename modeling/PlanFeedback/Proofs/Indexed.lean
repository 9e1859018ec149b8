import PlanFeedback.Proofs.LiteralExtent

/-!
Literals read by indexes into the whole text. An access outside the text is an error here, so that
the agreement with the reader of remaining bytes says as well that no index leaves the text.
-/
namespace PlanFeedback.Query.Indexed

open Text

/-- Bytes were asked for that the text does not have. -/
structure OutOfRange where
  start : Nat
  stop : Nat
  length : Nat
  deriving DecidableEq, Repr

variable (b : Bytes)

/-- A look at a byte that need not be there. -/
def peek? (i : Nat) : Option UInt8 := b[i]?

def byteAt (i : Nat) : Except OutOfRange UInt8 :=
  if h : i < b.length then .ok b[i] else .error ⟨i, i + 1, b.length⟩

def bytesFrom (i : Nat) : Except OutOfRange Bytes :=
  if i ≤ b.length then .ok (b.drop i) else .error ⟨i, b.length, b.length⟩

def bytesBetween (i j : Nat) : Except OutOfRange Bytes :=
  if i ≤ j ∧ j ≤ b.length then .ok (slice b i j) else .error ⟨i, j, b.length⟩

def startsNumberAt (i : Nat) : Bool :=
  match peek? b i with
  | some d => isDigit d || (d == 0x2E && (peek? b (i + 1)).any isDigit)
  | none => false

def runLength (p : UInt8 → Bool) (start : Nat) : Except OutOfRange Nat := do
  let rest ← bytesFrom b start
  return (rest.takeWhile p).length

def fractionEnd (i : Nat) : Except OutOfRange Nat :=
  if peek? b i = some 0x2E then do return i + 1 + (← runLength b isDigit (i + 1)) else return i

def exponentEnd (i : Nat) : Except OutOfRange Nat :=
  if peek? b i = some 0x65 ∨ peek? b i = some 0x45 then do
    let j := if peek? b (i + 1) = some 0x2B ∨ peek? b (i + 1) = some 0x2D then i + 2 else i + 1
    if (peek? b j).any isDigit then return j + (← runLength b isDigit j) else return i
  else return i

def numberAt (start : Nat) : Except OutOfRange Nat := do
  let i ← fractionEnd b (start + (← runLength b isDigit start))
  return (← exponentEnd b i) - start

/-- Goes on at an index with a string that began at `start`. -/
def quotedFrom (escapes : Bool) (start i : Nat) : Except OutOfRange (Option Nat) :=
  if i < b.length then do
    let c ← byteAt b i
    if escapes && c == 0x5C then quotedFrom escapes start (i + 2)
    else if c == 0x27 then
      if peek? b (i + 1) = some 0x27 then quotedFrom escapes start (i + 2)
      else return some (i + 1 - start)
    else quotedFrom escapes start (i + 1)
  else return none
termination_by b.length - i

def quotedAt (escapes : Bool) (start : Nat) : Except OutOfRange (Option Nat) :=
  quotedFrom b escapes start (start + 1)

/-- The first byte behind a dollar sign can begin a tag, or ends an empty one. -/
def opensTag (tagged : Bytes) : Bool := tagged.head?.all fun c => c == 0x24 || isWordStart c

def dollarQuotedAt (start : Nat) : Except OutOfRange (Option Nat) := do
  let tagged ← bytesFrom b (start + 1)
  if !opensTag tagged then return none
  match tagged.idxOf? 0x24 with
  | none => return none
  | some n =>
    if !(← bytesBetween tagged 0 n).all isTagByte then return none
    let mark ← bytesBetween b start (start + n + 2)
    let body := start + mark.length
    match offsetOf? mark (← bytesFrom b body) with
    | none => return none
    | some close => return some (body + close + mark.length - start)

/-- The length of the literal token at an index. -/
def literalAt (i : Nat) : Except OutOfRange (Option Nat) :=
  match peek? b i with
  | none => return none
  | some c =>
    if c = 0x27 then quotedAt b false i
    else if c = 0x24 then
      if (peek? b (i + 1)).any isDigit then do
        return some (1 + (← runLength b isDigit (i + 1)))
      else dollarQuotedAt b i
    else if c = 0x2D ∨ c = 0x2B then
      if startsNumberAt b (i + 1) then do return some (1 + (← numberAt b (i + 1)))
      else return none
    else if startsNumberAt b i then do return some (← numberAt b i)
    else if isEscapeLetter c ∧ peek? b (i + 1) = some 0x27 then
      return (← quotedAt b true (i + 1)).map (· + 1)
    else if isStringLetter c ∧ peek? b (i + 1) = some 0x27 then
      return (← quotedAt b false (i + 1)).map (· + 1)
    else if isUnicodeLetter c ∧ peek? b (i + 1) = some 0x26 ∧ peek? b (i + 2) = some 0x27 then
      return (← quotedAt b false (i + 2)).map (· + 2)
    else if isWordStart c then do return some (← runLength b isWordByte i)
    else return none

/-! What stands at an index and what remains there. -/

theorem peek?_eq (i : Nat) : peek? b i = (b.drop i).head? := by
  rw [peek?, List.head?_drop]

theorem peek?_succ (i : Nat) : peek? b (i + 1) = ((b.drop i).drop 1).head? := by
  rw [peek?_eq, List.drop_drop]

theorem peek?_any (i : Nat) : (peek? b i).any isDigit = startsDigit (b.drop i) := by
  rw [peek?_eq]
  cases b.drop i <;> rfl

theorem startsNumberAt_eq (i : Nat) : startsNumberAt b i = startsNumber (b.drop i) := by
  rw [startsNumberAt, peek?_any, ← List.drop_drop, peek?_eq]
  cases b.drop i <;> rfl

variable {b}

theorem bytesFrom_eq {i : Nat} (h : i ≤ b.length) : bytesFrom b i = .ok (b.drop i) := if_pos h

theorem runLength_eq {p : UInt8 → Bool} {i : Nat} (h : i ≤ b.length) :
    runLength b p i = .ok ((b.drop i).takeWhile p).length := by
  rw [runLength, bytesFrom_eq h]
  rfl

theorem lt_of_head {i : Nat} {c : UInt8} (h : (b.drop i).head? = some c) : i < b.length := by
  rw [List.head?_drop] at h
  exact (List.getElem?_eq_some_iff.1 h).1

/-! Numbers. -/

theorem fractionEnd_eq (i : Nat) : fractionEnd b i = .ok (i + fractionLength (b.drop i)) := by
  rw [fractionEnd, peek?_eq]
  split
  · rename_i hpoint
    have hlt := lt_of_head hpoint
    obtain ⟨rest, hrest⟩ : ∃ rest, b.drop i = 0x2E :: rest := by
      cases hb : b.drop i with
      | nil => rw [hb] at hpoint; cases hpoint
      | cons c rest => rw [hb] at hpoint; exact ⟨rest, by rw [Option.some.inj hpoint]⟩
    have hdrop : b.drop (i + 1) = rest := by rw [← List.drop_drop, hrest]; rfl
    rw [runLength_eq hlt, hdrop, hrest]
    simp only [fractionLength, if_true, digitsLength, ← Nat.add_assoc]
    rfl
  · rename_i hpoint
    have hnone : fractionLength (b.drop i) = 0 := by
      cases hb : b.drop i with
      | nil => rfl
      | cons c rest =>
          rw [hb, List.head?_cons, Option.some.injEq] at hpoint
          rw [fractionLength, if_neg hpoint]
    rw [hnone]
    rfl

theorem exponentEnd_eq (i : Nat) : exponentEnd b i = .ok (i + exponentLength (b.drop i)) := by
  rw [exponentEnd]
  simp only [peek?_any, peek?_succ]
  rw [peek?_eq]
  cases hb : b.drop i with
  | nil => rfl
  | cons e rest =>
      have hdrop : ∀ k, b.drop (i + (1 + k)) = rest.drop k := by
        intro k
        rw [← List.drop_drop, hb, Nat.add_comm, List.drop_succ_cons]
      have hsign : (if (List.drop 1 (e :: rest)).head? = some 0x2B ∨
          (List.drop 1 (e :: rest)).head? = some 0x2D then i + 2 else i + 1) =
          i + (1 + signLength rest) := by
        cases rest with
        | nil => rfl
        | cons s rest =>
            simp only [List.drop_succ_cons, List.drop_zero, List.head?_cons, Option.some.injEq,
              signLength]
            split <;> rfl
      simp only [hsign, hdrop, List.head?_cons, Option.some.injEq, exponentLength]
      by_cases he : e = 0x65 ∨ e = 0x45
      · rw [if_pos he]
        cases hdigit : startsDigit (rest.drop (signLength rest)) with
        | false =>
            rw [if_neg Bool.false_ne_true, if_neg fun h => Bool.false_ne_true h.2]
            rfl
        | true =>
            have hlt : i + (1 + signLength rest) < b.length := by
              obtain ⟨d, hd, -⟩ := (startsDigit_iff _).1 hdigit
              rw [← hdrop] at hd
              exact lt_of_head hd
            rw [if_pos rfl, if_pos ⟨he, rfl⟩, runLength_eq (Nat.le_of_lt hlt), hdrop]
            simp only [digitsLength, ← Nat.add_assoc]
            rfl
      · rw [if_neg he, if_neg fun h => he h.1]
        rfl

theorem numberAt_eq {i : Nat} (h : i ≤ b.length) :
    numberAt b i = .ok (numberLength (b.drop i)) := by
  rw [numberAt, runLength_eq h]
  change (fractionEnd b (i + digitsLength (b.drop i))).bind _ = _
  rw [fractionEnd_eq]
  change (exponentEnd b _).map (· - i) = _
  rw [exponentEnd_eq, Except.map, numberLength]
  simp only [List.drop_drop, Nat.add_assoc, Nat.add_sub_cancel_left]

/-! Quotes. -/

theorem map_counted_later (start i k : Nat) (o : Option Nat) :
    o.map (fun n => i + k + n - start) = (o.map (· + k)).map fun n => i + n - start := by
  rw [Option.map_map]
  congr 1
  funext n
  simp only [Function.comp_apply]
  rw [Nat.add_comm n k, Nat.add_assoc]

theorem quotedFrom_eq (escapes : Bool) (start i : Nat) : quotedFrom b escapes start i =
    .ok ((closingLength? escapes (b.drop i)).map fun n => i + n - start) := by
  induction hn : b.length - i using Nat.strong_induction_on generalizing i with
  | _ n ih =>
      rw [quotedFrom]
      by_cases hi : i < b.length
      · have hdrop : b.drop i = b[i] :: b.drop (i + 1) := List.drop_eq_getElem_cons hi
        have hskip : ∀ k, 0 < k → quotedFrom b escapes start (i + k) =
            .ok ((closingLength? escapes (b.drop (i + k))).map fun n => i + k + n - start) :=
          fun k hk => ih _ (by omega) (i + k) rfl
        have hbyte : byteAt b i = .ok b[i] := dif_pos hi
        have htwo : b.drop (i + 2) = (b.drop (i + 1)).drop 1 := by rw [List.drop_drop]
        rw [if_pos hi, hbyte, hdrop]
        change (if _ then _ else _) = _
        by_cases he : (escapes && b[i] == 0x5C) = true
        · rw [if_pos he, hskip 2 (by decide), htwo, map_counted_later]
          simp only [Bool.and_eq_true, beq_iff_eq] at he
          rw [he.1, he.2]
          cases b.drop (i + 1) with
          | nil => rfl
          | cons d rest => rw [closingLength?_hidden]; rfl
        · rw [if_neg he]
          by_cases hq : b[i] = 0x27
          · rw [if_pos (beq_iff_eq.2 hq), hq]
            cases hsecond : startsQuote (b.drop (i + 1)) with
            | true =>
                have hpeek : peek? b (i + 1) = some 0x27 := by
                  rw [peek?_eq]
                  exact (startsQuote_iff _).1 hsecond
                obtain ⟨rest, hrest⟩ := startsQuote_eq_true hsecond
                rw [if_pos hpeek, hskip 2 (by decide), htwo, map_counted_later, hrest, closingLength?_doubled]
                rfl
            | false =>
                have hpeek : peek? b (i + 1) ≠ some 0x27 := by
                  rw [peek?_eq, Ne, ← startsQuote_iff, hsecond]
                  exact Bool.false_ne_true
                rw [if_neg hpeek, closingLength?_last escapes hsecond]
                rfl
          · rw [if_neg (by rwa [beq_iff_eq]), hskip 1 (by decide), map_counted_later,
              closingLength?_plain _ hq (Bool.eq_false_iff.2 he)]
      · rw [if_neg hi, List.drop_eq_nil_of_le (Nat.not_lt.1 hi)]
        rfl

theorem quotedAt_eq (escapes : Bool) (i : Nat) : quotedAt b escapes i =
    .ok ((closingLength? escapes (b.drop (i + 1))).map (· + 1)) := by
  rw [quotedAt, quotedFrom_eq]
  congr 2
  funext n
  omega

/-! Dollar quotes. -/

theorem split_of_idxOf {tagged : Bytes} {n : Nat} (h : tagged.idxOf? 0x24 = some n) :
    ∃ w rest, tagged = w ++ 0x24 :: rest ∧ w.length = n ∧ 0x24 ∉ w := by
  rw [List.idxOf?, List.findIdx?_eq_some_iff_getElem] at h
  obtain ⟨hlt, hmark, hbefore⟩ := h
  refine ⟨tagged.take n, tagged.drop (n + 1), ?_, List.length_take_of_le (Nat.le_of_lt hlt), ?_⟩
  · rw [← eq_of_beq hmark, List.getElem_cons_drop, List.take_append_drop]
  · intro hmem
    obtain ⟨j, hj, hbyte⟩ := List.mem_iff_getElem.1 hmem
    rw [List.getElem_take] at hbyte
    rw [List.length_take] at hj
    exact hbefore j (by omega) (beq_iff_eq.2 hbyte)

/-- A dollar sign that is the first has the tag in front of it, or none is there. -/
theorem dollarTag?_cut {w : Bytes} (rest : Bytes) (hw : 0x24 ∉ w) : dollarTag? (w ++ 0x24 :: rest) =
    if w.all isTagByte && !startsDigit w then some w else none := by
  have hcut : ∀ {v r : Bytes}, 0x24 ∉ v → (v ++ 0x24 :: r).takeWhile (· != 0x24) = v :=
    fun hv => takeWhile_append_stop _ (fun b hb => bne_iff_ne.2 fun h => hv (h ▸ hb)) rfl
  split
  · rename_i hgood
    rw [Bool.and_eq_true, List.all_eq_true, Bool.not_eq_true'] at hgood
    exact dollarTag?_append rest hgood.1 hgood.2
  · rename_i hbad
    by_contra hne
    obtain ⟨tag, htag⟩ := Option.ne_none_iff_exists'.1 hne
    obtain ⟨r, hsplit, ht, hd⟩ := dollarTag?_eq_some htag
    have hnot : 0x24 ∉ tag := fun hmem => Bool.false_ne_true (ht _ hmem)
    obtain rfl : w = tag := by rw [← hcut hw (r := rest), hsplit, hcut hnot]
    apply hbad
    rw [hd, List.all_eq_true.2 ht]
    rfl

theorem dollarTag?_missing {tagged : Bytes} (h : 0x24 ∉ tagged) : dollarTag? tagged = none := by
  by_contra hne
  obtain ⟨tag, htag⟩ := Option.ne_none_iff_exists'.1 hne
  obtain ⟨r, rfl, -⟩ := dollarTag?_eq_some htag
  exact h (by simp)

theorem opensTag_of_tag {w : Bytes} (z : Bytes) (hw : w.all isTagByte = true)
    (hd : startsDigit w = false) : opensTag (w ++ 0x24 :: z) = true := by
  cases w with
  | nil => rfl
  | cons c w =>
      simp only [List.all_cons, Bool.and_eq_true, isTagByte, Bool.or_eq_true] at hw
      simp only [startsDigit] at hd
      simpa [opensTag, hd] using Or.inr hw.1

theorem bytesBetween_tag (w z : Bytes) : bytesBetween (w ++ 0x24 :: z) 0 w.length = .ok w := by
  rw [bytesBetween, if_pos ⟨Nat.zero_le _, by simp⟩, slice, List.drop_zero, Nat.sub_zero,
    List.take_left]

theorem bytes_of_mark {i : Nat} {w z : Bytes} (hb : b.drop i = 0x24 :: (w ++ 0x24 :: z)) :
    bytesBetween b i (i + w.length + 2) = .ok (0x24 :: w ++ [0x24]) ∧
      bytesFrom b (i + (0x24 :: w ++ [0x24]).length) = .ok z := by
  have hsplit : b.drop i = (0x24 :: w ++ [0x24]) ++ z := by simp [hb]
  have hmark : (0x24 :: w ++ [0x24]).length = w.length + 2 := by simp
  have hlt : i < b.length := lt_of_head (by rw [hb]; rfl)
  have hlength : b.length = i + (w.length + 2) + z.length := by
    have h := congrArg List.length hsplit
    rw [List.length_drop, List.length_append, hmark] at h
    omega
  constructor
  · rw [bytesBetween, if_pos ⟨by omega, by omega⟩, slice, hsplit, List.take_left' (by omega)]
  · rw [hmark, bytesFrom_eq (by omega), ← List.drop_drop, hsplit, List.drop_left' hmark]

theorem dollarQuotedAt_eq {i : Nat} {rest : Bytes} (hb : b.drop i = 0x24 :: rest)
    (hd : startsDigit rest = false) : dollarQuotedAt b i = .ok (dollarQuotedLength? rest) := by
  have hlt : i < b.length := lt_of_head (by rw [hb]; rfl)
  have hrest : b.drop (i + 1) = rest := by rw [← List.drop_drop, hb]; rfl
  rw [dollarQuotedAt, bytesFrom_eq hlt, hrest]
  change (if _ then _ else _) = _
  cases hn : rest.idxOf? 0x24 with
  | none =>
      have hnone := dollarTag?_missing (List.idxOf?_eq_none_iff.1 hn)
      rw [dollarQuotedLength?, hnone]
      split <;> rfl
  | some n =>
      obtain ⟨w, z, rfl, rfl, hw⟩ := split_of_idxOf hn
      have hcut := dollarTag?_cut z hw
      have hdw : startsDigit w = false := by
        cases w with
        | nil => rfl
        | cons c w => exact hd
      rw [hdw, Bool.not_false, Bool.and_true] at hcut
      rw [dollarQuotedLength?]
      cases hall : w.all isTagByte with
      | false =>
          rw [hcut, hall]
          split
          · rfl
          · simp only [bytesBetween_tag]
            change (if (!w.all isTagByte) = true then _ else _) = _
            rw [hall]
            rfl
      | true =>
          obtain ⟨hmark, hbody⟩ := bytes_of_mark hb
          have hz : (w ++ 0x24 :: z).drop (w.length + 1) = z := by
            rw [← List.drop_drop, List.drop_left]
            rfl
          rw [opensTag_of_tag z hall hdw, hcut, if_pos hall]
          simp only [bytesBetween_tag, hmark]
          change (if (!w.all isTagByte) = true then _ else
            (bytesFrom b (i + (0x24 :: w ++ [0x24]).length)).bind _) =
              Except.ok (Option.bind (offsetOf? _ ((w ++ 0x24 :: z).drop (w.length + 1))) _)
          rw [hall, hbody, hz, if_neg (by decide), Except.bind]
          cases offsetOf? (0x24 :: w ++ [0x24]) z with
          | none => rfl
          | some close =>
              change Except.ok (some _) = Except.ok (some _)
              congr 2
              simp only [List.length_append, List.length_cons, List.length_nil]
              omega

theorem literalAt_eq (i : Nat) : literalAt b i = .ok (literalLength? (b.drop i)) := by
  rw [literalAt, peek?_eq]
  cases hb : b.drop i with
  | nil => rfl
  | cons c rest =>
      have hlt : i < b.length := lt_of_head (by rw [hb]; rfl)
      have hdrop : ∀ k, b.drop (i + (k + 1)) = rest.drop k := by
        intro k
        rw [← List.drop_drop, hb, List.drop_succ_cons]
      have hquote : peek? b (i + 1) = some 0x27 ↔ startsQuote rest = true := by
        rw [peek?_eq, hdrop 0, List.drop_zero, startsQuote_iff]
      have hunicode : (peek? b (i + 1) = some 0x26 ∧ peek? b (i + 2) = some 0x27) ↔
          startsUnicodeQuote rest = true := by
        rw [peek?_eq, peek?_eq, hdrop 0, hdrop 1, List.drop_zero]
        cases rest with
        | nil => simp [startsUnicodeQuote]
        | cons d rest => simp [startsUnicodeQuote, startsQuote_iff]
      have hquoted : ∀ escapes, quotedAt b escapes (i + 1) =
          .ok ((closingLength? escapes (rest.drop 1)).map (· + 1)) := by
        intro escapes
        rw [quotedAt_eq, Nat.add_assoc, hdrop 1]
      have hmore : ∀ k (o : Option Nat), (o.map (· + 1)).map (· + k) = o.map (· + (k + 1)) := by
        intro k o
        rw [Option.map_map]
        congr 1
        funext n
        simp only [Function.comp_apply]
        omega
      have hone : b.drop (i + 1) = rest := hdrop 0
      simp only [List.head?_cons, peek?_any, startsNumberAt_eq, hone, hb, hquote, hunicode,
        literalLength?]
      split
      · rw [quotedAt_eq, hone]
      split
      · rename_i hc
        split
        · rw [runLength_eq hlt, hone]
          rfl
        · rename_i hd
          exact dollarQuotedAt_eq (hc ▸ hb) (Bool.eq_false_iff.2 hd)
      split
      · split
        · rw [numberAt_eq hlt, hone]
          rfl
        · rfl
      split
      · rw [numberAt_eq (Nat.le_of_lt hlt), hb]
        rfl
      split
      · rw [hquoted]
        exact congrArg Except.ok (hmore 1 _)
      split
      · rw [hquoted]
        exact congrArg Except.ok (hmore 1 _)
      split
      · rw [quotedAt_eq, Nat.add_assoc, hdrop 2]
        exact congrArg Except.ok (hmore 2 _)
      split
      · rw [runLength_eq (Nat.le_of_lt hlt), hb]
        rfl
      · rfl

end PlanFeedback.Query.Indexed
