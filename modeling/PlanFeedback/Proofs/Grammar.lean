import PlanFeedback.Proofs.LiteralExtent

/-!
The grammar of literal tokens: what each sort of token is made of, and where it ends. The reader
finds a token exactly if the grammar has one, and takes as many bytes as the grammar says.
-/
namespace PlanFeedback.Query

open Text

/-- The longest beginning of some bytes that is in a class. -/
structure Longest (p : Bytes → Prop) (b x : Bytes) : Prop where
  begins : x <+: b
  holds : p x
  longest : ∀ y, y <+: b → p y → y.length ≤ x.length

def IsDigit (b : UInt8) : Prop := 0x30 ≤ b ∧ b ≤ 0x39

/-- A letter, an underscore or a byte of a character that is not ASCII. -/
def IsWordStart (b : UInt8) : Prop :=
  (0x61 ≤ b ∧ b ≤ 0x7A) ∨ (0x41 ≤ b ∧ b ≤ 0x5A) ∨ b = 0x5F ∨ 0x80 ≤ b

def IsTagByte (b : UInt8) : Prop := IsWordStart b ∨ IsDigit b

def AllDigits (x : Bytes) : Prop := ∀ d ∈ x, IsDigit d

def IsWord (x : Bytes) : Prop := ∀ d ∈ x, IsTagByte d ∨ d = 0x24

/-- A digit comes first, or a point and a digit. -/
inductive StartsNumber : Bytes → Prop where
  | digit {d : UInt8} {y : Bytes} : IsDigit d → StartsNumber (d :: y)
  | point {d : UInt8} {y : Bytes} : IsDigit d → StartsNumber (0x2E :: d :: y)

/-- What comes first is the prefix of a string and its quote. -/
inductive OpensString : Bytes → Prop where
  | string {c : UInt8} {y : Bytes} : c ∈ [0x45, 0x65, 0x42, 0x62, 0x58, 0x78, 0x4E, 0x6E] →
      OpensString (c :: 0x27 :: y)
  | unicode {c : UInt8} {y : Bytes} : c ∈ [0x55, 0x75] → OpensString (c :: 0x26 :: 0x27 :: y)

/-- Nothing, or a point with any number of digits. -/
inductive IsFraction : Bytes → Prop where
  | absent : IsFraction []
  | point {ds : Bytes} : AllDigits ds → IsFraction (0x2E :: ds)

/-- Nothing, or the letter `e`, a sign that may be absent, and digits. -/
inductive IsExponent : Bytes → Prop where
  | absent : IsExponent []
  | power {e : UInt8} {sign ds : Bytes} : e = 0x65 ∨ e = 0x45 →
      sign = [] ∨ sign = [0x2B] ∨ sign = [0x2D] → AllDigits ds → ds ≠ [] →
      IsExponent (e :: (sign ++ ds))

/-- Digits, a fraction and an exponent, each of which may be absent. -/
inductive IsNumeral : Bytes → Prop where
  | parts {whole fraction exponent : Bytes} : AllDigits whole → IsFraction fraction →
      IsExponent exponent → IsNumeral (whole ++ (fraction ++ exponent))

/-- A string of `n` bytes: a body between two quotes, with no quote behind it. -/
inductive Quoted (escapes : Bool) : Bytes → Nat → Prop where
  | closed {body y : Bytes} : QuotedBody escapes body → y.head? ≠ some 0x27 →
      Quoted escapes (0x27 :: (body ++ 0x27 :: y)) (body.length + 2)

/-- The mark that opens and closes a dollar quote. -/
def dollarMark (tag : Bytes) : Bytes := 0x24 :: tag ++ [0x24]

/-- A dollar quote of `n` bytes: the same mark on both sides of the shortest body. -/
inductive DollarQuoted : Bytes → Nat → Prop where
  | closed {tag body y : Bytes} : (∀ b ∈ tag, IsTagByte b) → (∀ d ∈ tag.head?, ¬ IsDigit d) →
      (∀ body' y', body ++ (dollarMark tag ++ y) = body' ++ (dollarMark tag ++ y') →
        body.length ≤ body'.length) →
      DollarQuoted (dollarMark tag ++ (body ++ (dollarMark tag ++ y)))
        (2 * (dollarMark tag).length + body.length)

/-- The first `n` bytes are a literal token. -/
inductive Literal : Bytes → Nat → Prop where
  | quoted {b : Bytes} {n : Nat} : Quoted false b n → Literal b n
  | escape {c : UInt8} {b : Bytes} {n : Nat} : c ∈ [0x45, 0x65] → Quoted true b n →
      Literal (c :: b) (n + 1)
  | string {c : UInt8} {b : Bytes} {n : Nat} : c ∈ [0x42, 0x62, 0x58, 0x78, 0x4E, 0x6E] →
      Quoted false b n → Literal (c :: b) (n + 1)
  | unicode {c : UInt8} {b : Bytes} {n : Nat} : c ∈ [0x55, 0x75] → Quoted false b n →
      Literal (c :: 0x26 :: b) (n + 2)
  | marker {b ds : Bytes} : ds ≠ [] → Longest AllDigits b ds →
      Literal (0x24 :: b) (ds.length + 1)
  | dollar {b : Bytes} {n : Nat} : DollarQuoted b n → Literal b n
  | number {b x : Bytes} : StartsNumber b → Longest IsNumeral b x → Literal b x.length
  | signed {c : UInt8} {b x : Bytes} : c ∈ [0x2D, 0x2B] → StartsNumber b →
      Longest IsNumeral b x → Literal (c :: b) (x.length + 1)
  | word {c : UInt8} {b x : Bytes} : IsWordStart c → ¬ OpensString (c :: b) →
      Longest IsWord (c :: b) x → Literal (c :: b) x.length

/-! The longest beginning in a class. -/

theorem Longest.unique {p : Bytes → Prop} {b x y : Bytes} (hx : Longest p b x)
    (hy : Longest p b y) : x = y := by
  have hle := hx.longest y hy.begins hy.holds
  have hge := hy.longest x hx.begins hx.holds
  exact (List.prefix_of_prefix_length_le hx.begins hy.begins hge).eq_of_length
    (Nat.le_antisymm hge hle)

theorem longest_takeWhile {p : UInt8 → Bool} {q : UInt8 → Prop} (hpq : ∀ d, p d = true ↔ q d)
    (b : Bytes) : Longest (fun x => ∀ d ∈ x, q d) b (b.takeWhile p) where
  begins := List.takeWhile_prefix p
  holds := fun d hd => (hpq d).1 (List.mem_takeWhile_imp hd)
  longest := by
    rintro y ⟨z, rfl⟩ hy
    rw [List.takeWhile_append_of_pos fun d hd => (hpq d).2 (hy d hd), List.length_append]
    exact Nat.le_add_right _ _

/-! The classes that the reader tests. -/

theorem isDigit_iff (b : UInt8) : isDigit b = true ↔ IsDigit b := by
  simp [isDigit, IsDigit]

theorem isWordStart_iff (b : UInt8) : isWordStart b = true ↔ IsWordStart b := by
  simp [isWordStart, isLetter, isLower, isUpper, IsWordStart, or_assoc]

theorem isTagByte_iff (b : UInt8) : isTagByte b = true ↔ IsTagByte b := by
  simp [isTagByte, IsTagByte, isWordStart_iff, isDigit_iff]

theorem isWordByte_iff (b : UInt8) : isWordByte b = true ↔ IsTagByte b ∨ b = 0x24 := by
  simp [isWordByte, isTagByte_iff]

theorem longest_digits (b : Bytes) : Longest AllDigits b (b.takeWhile isDigit) :=
  longest_takeWhile isDigit_iff b

theorem longest_word (b : Bytes) : Longest IsWord b (b.takeWhile isWordByte) :=
  longest_takeWhile isWordByte_iff b

theorem AllDigits.isDigit {x : Bytes} (h : AllDigits x) : ∀ d ∈ x, isDigit d = true :=
  fun d hd => (isDigit_iff d).2 (h d hd)

theorem startsNumber_iff {b : Bytes} : startsNumber b = true ↔ StartsNumber b := by
  constructor
  · intro h
    cases b with
    | nil => cases h
    | cons c b =>
        simp only [startsNumber, Bool.or_eq_true, Bool.and_eq_true, beq_iff_eq] at h
        rcases h with h | ⟨rfl, h⟩
        · exact .digit ((isDigit_iff c).1 h)
        · cases b with
          | nil => cases h
          | cons d b => exact .point ((isDigit_iff d).1 h)
  · intro h
    cases h with
    | digit h => simp [startsNumber, (isDigit_iff _).2 h]
    | point h => simp [startsNumber, startsDigit, (isDigit_iff _).2 h]

theorem startsQuote_eq_false_iff {b : Bytes} : startsQuote b = false ↔ b.head? ≠ some 0x27 := by
  cases b <;> simp [startsQuote]

theorem startsDigit_eq_false_iff {b : Bytes} :
    startsDigit b = false ↔ ∀ d ∈ b.head?, ¬ IsDigit d := by
  cases b <;> simp [startsDigit, ← isDigit_iff]

theorem takeWhile_isDigit_ne_nil_iff {b : Bytes} :
    b.takeWhile isDigit ≠ [] ↔ startsDigit b = true := by
  cases b with
  | nil => simp [startsDigit]
  | cons c b => cases h : isDigit c <;> simp [startsDigit, h]

theorem isStringMark_iff {c : UInt8} {b : Bytes} :
    isStringMark [c] b = true ↔ OpensString (c :: b) := by
  simp only [isStringMark_singleton, Bool.or_eq_true, Bool.and_eq_true, isEscapeLetter_iff,
    isStringLetter_iff, isUnicodeLetter_iff]
  constructor
  · rintro (⟨hc, hb⟩ | ⟨hc, hb⟩)
    · obtain ⟨y, rfl⟩ := startsQuote_eq_true hb
      exact .string (by simpa [or_assoc] using hc)
    · obtain ⟨y, rfl⟩ := startsUnicodeQuote_eq_true hb
      exact .unicode (by simpa using hc)
  · intro h
    cases h with
    | string hc => exact .inl ⟨by simpa [or_assoc] using hc, rfl⟩
    | unicode hc => exact .inr ⟨by simpa using hc, rfl⟩

/-! Numbers. -/

theorem take_digitsLength (b : Bytes) : b.take (digitsLength b) = b.takeWhile isDigit :=
  (List.prefix_iff_eq_take.1 (List.takeWhile_prefix isDigit)).symm

theorem allDigits_take (b : Bytes) : AllDigits (b.take (digitsLength b)) := by
  rw [take_digitsLength]
  exact (longest_digits b).holds

theorem isFraction_take (b : Bytes) : IsFraction (b.take (fractionLength b)) := by
  cases b with
  | nil => exact .absent
  | cons c b =>
      rw [fractionLength]
      split
      · rename_i hc
        rw [hc, Nat.add_comm, List.take_succ_cons]
        exact .point (allDigits_take b)
      · exact .absent

theorem sign_take (b : Bytes) : b.take (signLength b) = [] ∨ b.take (signLength b) = [0x2B] ∨
    b.take (signLength b) = [0x2D] := by
  cases b with
  | nil => exact Or.inl rfl
  | cons c b =>
      rw [signLength]
      split
      · rename_i hc
        rcases hc with rfl | rfl
        · exact Or.inr (Or.inl rfl)
        · exact Or.inr (Or.inr rfl)
      · exact Or.inl rfl

theorem isExponent_take (b : Bytes) : IsExponent (b.take (exponentLength b)) := by
  cases b with
  | nil => exact .absent
  | cons c b =>
      rw [exponentLength]
      split
      · rename_i hc
        rw [Nat.add_assoc, Nat.add_comm, List.take_succ_cons, List.take_add]
        refine .power hc.1 (sign_take b) (allDigits_take _) ?_
        intro hnil
        have hzero : digitsLength (b.drop (signLength b)) = 0 := by
          have hlength := congrArg List.length hnil
          rw [List.length_take, Nat.min_eq_left (digitsLength_le _)] at hlength
          exact hlength
        rw [digitsLength_eq_zero, hc.2] at hzero
        cases hzero
      · exact .absent

theorem isNumeral_take (b : Bytes) : IsNumeral (b.take (numberLength b)) := by
  rw [numberLength, List.take_add, List.take_add, List.append_assoc]
  exact .parts (allDigits_take b) (isFraction_take _) (isExponent_take _)

theorem le_digitsLength {ds : Bytes} (y : Bytes) (hds : AllDigits ds) :
    ds.length ≤ digitsLength (ds ++ y) :=
  (longest_digits (ds ++ y)).longest ds (List.prefix_append ds y) hds

theorem digitsLength_stop {ds : Bytes} {c : UInt8} (y : Bytes) (hds : AllDigits ds)
    (hc : isDigit c = false) : digitsLength (ds ++ c :: y) = ds.length := by
  rw [digitsLength, takeWhile_append_stop y hds.isDigit hc]

theorem isDigit_exponent {e : UInt8} (he : e = 0x65 ∨ e = 0x45) : isDigit e = false := by
  rcases he with rfl | rfl <;> rfl

theorem le_exponentLength {x : Bytes} (y : Bytes) (hx : IsExponent x) :
    x.length ≤ exponentLength (x ++ y) := by
  cases hx with
  | absent => exact Nat.zero_le _
  | @power e sign ds he hsign hds hne =>
      have hsl : signLength (sign ++ (ds ++ y)) = sign.length := by
        rcases hsign with rfl | rfl | rfl
        · cases ds with
          | nil => exact absurd rfl hne
          | cons d ds =>
              have hd := hds.isDigit d List.mem_cons_self
              have hs : ¬ (d = 0x2B ∨ d = 0x2D) := by rintro (rfl | rfl) <;> cases hd
              simp only [List.nil_append, List.cons_append, signLength, hs, if_false,
                List.length_nil]
        · rfl
        · rfl
      have hdigit : startsDigit (ds ++ y) = true := by
        cases ds with
        | nil => exact absurd rfl hne
        | cons d ds => exact hds.isDigit d List.mem_cons_self
      have hle := le_digitsLength y hds
      have hassoc : e :: (sign ++ ds) ++ y = e :: (sign ++ (ds ++ y)) := by simp
      rw [hassoc]
      simp only [exponentLength, hsl, List.drop_left, hdigit, he, and_self, if_true,
        List.length_cons, List.length_append]
      omega

theorem IsExponent.eq_nil_or {x : Bytes} (hx : IsExponent x) :
    x = [] ∨ ∃ e rest, x = e :: rest ∧ (e = 0x65 ∨ e = 0x45) := by
  cases hx with
  | absent => exact Or.inl rfl
  | power he => exact Or.inr ⟨_, _, rfl, he⟩

/-- What is left of a numeral behind its digits is covered by the fraction and the exponent. -/
theorem le_fraction_exponent {fraction exponent : Bytes} (y : Bytes) (hf : IsFraction fraction)
    (he : IsExponent exponent) : (fraction ++ exponent).length ≤
      fractionLength (fraction ++ (exponent ++ y)) + exponentLength ((fraction ++ (exponent ++ y)).drop
        (fractionLength (fraction ++ (exponent ++ y)))) := by
  cases hf with
  | absent =>
      rcases he.eq_nil_or with rfl | ⟨e, rest, rfl, hletter⟩
      · exact Nat.zero_le _
      · have hne : e ≠ 0x2E := by rintro rfl; rcases hletter with h | h <;> cases h
        have hnone : fractionLength ([] ++ (e :: rest ++ y)) = 0 := by
          simp only [List.nil_append, List.cons_append, fractionLength, hne, if_false]
        rw [hnone, Nat.zero_add, List.drop_zero]
        exact le_exponentLength y he
  | @point ds hds =>
      have hlen : ∀ z, fractionLength (0x2E :: ds ++ z) = 1 + digitsLength (ds ++ z) := by
        intro z
        simp only [List.cons_append, fractionLength, if_true]
      rcases he.eq_nil_or with rfl | ⟨e, rest, rfl, hletter⟩
      · have hle := le_digitsLength y hds
        rw [List.nil_append, hlen, List.append_nil, List.length_cons]
        omega
      · have hdigits : digitsLength (ds ++ (e :: rest ++ y)) = ds.length :=
          digitsLength_stop _ hds (isDigit_exponent hletter)
        have hdrop : (0x2E :: ds ++ (e :: rest ++ y)).drop (1 + ds.length) = e :: rest ++ y :=
          List.drop_left' (by rw [List.length_cons, Nat.add_comm])
        have hle := le_exponentLength y he
        rw [hlen, hdigits, hdrop, List.length_append]
        simp only [List.length_cons] at hle ⊢
        omega

theorem le_numberLength {x : Bytes} (y : Bytes) (hx : IsNumeral x) :
    x.length ≤ numberLength (x ++ y) := by
  obtain ⟨hw, hf, he⟩ := hx
  rename_i whole fraction exponent
  have hrest := le_fraction_exponent y hf he
  have hassoc : whole ++ (fraction ++ exponent) ++ y = whole ++ (fraction ++ (exponent ++ y)) := by
    simp
  rw [hassoc, List.length_append]
  by_cases hnil : fraction ++ exponent = []
  · have hle := le_digitsLength (fraction ++ (exponent ++ y)) hw
    rw [hnil, List.length_nil, numberLength]
    omega
  · obtain ⟨c, z, hz, hc⟩ : ∃ c z, fraction ++ (exponent ++ y) = c :: z ∧ isDigit c = false := by
      cases hf with
      | absent =>
          rcases he.eq_nil_or with rfl | ⟨e, rest, rfl, hletter⟩
          · exact absurd rfl hnil
          · exact ⟨e, rest ++ y, rfl, isDigit_exponent hletter⟩
      | point => exact ⟨0x2E, _, rfl, rfl⟩
    have hdigits : digitsLength (whole ++ (fraction ++ (exponent ++ y))) = whole.length := by
      rw [hz]
      exact digitsLength_stop z hw hc
    rw [numberLength, hdigits, List.drop_left, ← List.drop_drop, List.drop_left]
    omega

theorem longest_numeral (b : Bytes) : Longest IsNumeral b (b.take (numberLength b)) where
  begins := List.take_prefix _ b
  holds := isNumeral_take b
  longest := by
    rintro x ⟨y, rfl⟩ hx
    rw [List.length_take, Nat.min_eq_left (numberLength_le _)]
    exact le_numberLength y hx

/-! Quotes. -/

theorem quoted_iff {escapes : Bool} {b : Bytes} {n : Nat} :
    Quoted escapes b n ↔ ∃ rest m, b = 0x27 :: rest ∧ n = m + 1 ∧
      closingLength? escapes rest = some m := by
  constructor
  · rintro ⟨hbody, hy⟩
    exact ⟨_, _, rfl, rfl, hbody.closes (startsQuote_eq_false_iff.2 hy)⟩
  · rintro ⟨rest, m, rfl, rfl, h⟩
    obtain ⟨body, y, rfl, hbody, hy, rfl⟩ := quotedBody_of_closing h
    exact .closed hbody (startsQuote_eq_false_iff.1 hy)

theorem dollarQuoted_iff {b : Bytes} {n : Nat} :
    DollarQuoted b n ↔ ∃ rest, b = 0x24 :: rest ∧ dollarQuotedLength? rest = some n := by
  constructor
  · rintro ⟨ht, hd, hshort⟩
    rename_i tag body y
    refine ⟨tag ++ 0x24 :: (body ++ dollarMark tag ++ y), by simp [dollarMark], ?_⟩
    obtain ⟨m, hm, hle⟩ := offsetOf?_split (dollarMark tag) body y
    -- the reader's body is one of the grammar's, and the grammar's is the shortest
    obtain ⟨body', y', hsplit, hlength⟩ := split_of_offsetOf hm
    have hge := hshort body' y' (by rw [hsplit, List.append_assoc])
    have hbody : offsetOf? (dollarMark tag) (body ++ dollarMark tag ++ y) = some body.length := by
      rw [List.append_assoc, hm, Option.some.injEq]
      omega
    rw [dollarMark] at hbody ⊢
    have htag : ∀ b ∈ tag, isTagByte b = true := fun b hb => (isTagByte_iff b).2 (ht b hb)
    rw [dollarQuotedLength?_append htag (startsDigit_eq_false_iff.2 hd) hbody]
    simp
  · rintro ⟨rest, rfl, h⟩
    obtain ⟨tag, body, y, rfl, ht, hd, hbody, rfl⟩ := dollarQuoted_split h
    have hclosed : DollarQuoted (dollarMark tag ++ (body ++ (dollarMark tag ++ y)))
        (2 * (dollarMark tag).length + body.length) := by
      refine .closed (fun b hb => (isTagByte_iff b).1 (ht b hb)) (startsDigit_eq_false_iff.1 hd)
        fun body' y' hsplit => ?_
      obtain ⟨m, hm, hle⟩ := offsetOf?_split (dollarMark tag) body' y'
      rw [← hsplit, dollarMark, ← List.append_assoc, hbody, Option.some.injEq] at hm
      omega
    have hassoc : dollarMark tag ++ (body ++ (dollarMark tag ++ y)) =
        0x24 :: (tag ++ 0x24 :: (body ++ (0x24 :: tag ++ [0x24]) ++ y)) := by simp [dollarMark]
    have hlength : (dollarMark tag).length = tag.length + 2 := by simp [dollarMark]
    rwa [hassoc, hlength] at hclosed

/-! Literal tokens. -/

theorem LiteralForm.literal {c : UInt8} {rest : Bytes} {n : Nat} (h : LiteralForm c rest n) :
    Literal (c :: rest) n := by
  have hdigits : ∀ b : Bytes, (b.takeWhile isDigit).length = digitsLength b := fun _ => rfl
  have hnumber : ∀ b : Bytes, (b.take (numberLength b)).length = numberLength b := fun b => by
    rw [List.length_take, Nat.min_eq_left (numberLength_le b)]
  cases h with
  | quoted h => exact .quoted (quoted_iff.2 ⟨_, _, rfl, rfl, h⟩)
  | marker h =>
      rw [Nat.add_comm, ← hdigits]
      exact .marker (takeWhile_isDigit_ne_nil_iff.2 h) (longest_digits rest)
  | dollar _ h => exact .dollar (dollarQuoted_iff.2 ⟨rest, rfl, h⟩)
  | signed hc h =>
      rw [Nat.add_comm, ← hnumber]
      exact .signed (by simpa using hc) (startsNumber_iff.1 h) (longest_numeral rest)
  | number h =>
      rw [← hnumber]
      exact .number (startsNumber_iff.1 h) (longest_numeral _)
  | escape hc h =>
      exact .escape (by simpa using (isEscapeLetter_iff c).1 hc)
        (quoted_iff.2 ⟨_, _, rfl, rfl, h⟩)
  | string hc h =>
      exact .string (by simpa using (isStringLetter_iff c).1 hc)
        (quoted_iff.2 ⟨_, _, rfl, rfl, h⟩)
  | unicode hc h =>
      exact .unicode (by simpa using (isUnicodeLetter_iff c).1 hc)
        (quoted_iff.2 ⟨_, _, rfl, rfl, h⟩)
  | word hw hm =>
      refine .word ((isWordStart_iff c).1 hw) ?_ (longest_word _)
      rw [← isStringMark_iff, hm]
      exact Bool.false_ne_true

theorem Literal.form {b : Bytes} {n : Nat} (h : Literal b n) :
    ∃ c rest, b = c :: rest ∧ LiteralForm c rest n := by
  cases h with
  | quoted h =>
      obtain ⟨rest, m, rfl, rfl, hclose⟩ := quoted_iff.1 h
      exact ⟨_, _, rfl, .quoted hclose⟩
  | escape hc h =>
      obtain ⟨rest, m, rfl, rfl, hclose⟩ := quoted_iff.1 h
      exact ⟨_, _, rfl, .escape ((isEscapeLetter_iff _).2 (by simpa using hc)) hclose⟩
  | string hc h =>
      obtain ⟨rest, m, rfl, rfl, hclose⟩ := quoted_iff.1 h
      exact ⟨_, _, rfl, .string ((isStringLetter_iff _).2 (by simpa using hc)) hclose⟩
  | unicode hc h =>
      obtain ⟨rest, m, rfl, rfl, hclose⟩ := quoted_iff.1 h
      exact ⟨_, _, rfl, .unicode ((isUnicodeLetter_iff _).2 (by simpa using hc)) hclose⟩
  | marker hd h =>
      rw [h.unique (longest_digits _)] at hd ⊢
      rw [Nat.add_comm]
      exact ⟨_, _, rfl, .marker (takeWhile_isDigit_ne_nil_iff.1 hd)⟩
  | dollar h =>
      obtain ⟨rest, rfl, hclose⟩ := dollarQuoted_iff.1 h
      refine ⟨_, _, rfl, .dollar ?_ hclose⟩
      obtain ⟨tag, body, y, rfl, -, hd, -⟩ := dollarQuoted_split hclose
      cases tag with
      | nil => rfl
      | cons d tag => exact hd
  | @number b x hn h =>
      rw [h.unique (longest_numeral b), List.length_take, Nat.min_eq_left (numberLength_le b)]
      cases b with
      | nil => cases hn
      | cons c rest => exact ⟨c, rest, rfl, .number (startsNumber_iff.2 hn)⟩
  | @signed c b x hc hn h =>
      rw [h.unique (longest_numeral b), List.length_take, Nat.min_eq_left (numberLength_le b),
        Nat.add_comm]
      exact ⟨c, b, rfl, .signed (by simpa using hc) (startsNumber_iff.2 hn)⟩
  | word hw hm h =>
      rw [h.unique (longest_word _)]
      rw [← isStringMark_iff, Bool.not_eq_true] at hm
      exact ⟨_, _, rfl, .word ((isWordStart_iff _).2 hw) hm⟩

theorem literalLength?_eq_some_iff_literal {b : Bytes} {n : Nat} :
    literalLength? b = some n ↔ Literal b n := by
  constructor
  · intro h
    cases b with
    | nil => cases h
    | cons c rest => exact (literalLength?_eq_some_iff.1 h).literal
  · intro h
    obtain ⟨c, rest, rfl, hform⟩ := h.form
    exact hform.length

/-- At every offset of every text the reader finds the literal token that the grammar has there, and
none if the grammar has none. -/
theorem literalLengthAt?_grammar (text : String) (offset : Nat) :
    (∀ n, literalLengthAt? text offset = some n ↔ Literal ((utf8 text).drop offset) n) ∧
      (literalLengthAt? text offset = none ↔ ∀ n, ¬ Literal ((utf8 text).drop offset) n) := by
  have hsome : ∀ n, literalLengthAt? text offset = some n ↔
      Literal ((utf8 text).drop offset) n := fun _ => literalLength?_eq_some_iff_literal
  refine ⟨hsome, ?_⟩
  rw [Option.eq_none_iff_forall_ne_some]
  exact forall_congr' fun n => not_congr (hsome n)

end PlanFeedback.Query
