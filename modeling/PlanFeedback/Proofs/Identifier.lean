import Mathlib
import PlanFeedback.Plan.Identifier
import PlanFeedback.Proofs.Separation
import PlanFeedback.Proofs.Substitution

/-!
Identifiers are quoted faithfully. The quotes can be taken off again, whatever the name, and the
scanner of query text sees a single name that is closed.
-/
namespace PlanFeedback

namespace Plan

/-! The search for a keyword. -/

theorem holdsWord_iff {word : String} {table : List String} (h : table.Pairwise (· < ·)) :
    holdsWord word table = true ↔ word ∈ table := by
  fun_induction holdsWord word table with
  | case1 table hdrop =>
      have hnil : table = [] := by
        have := List.drop_eq_nil_iff.1 hdrop
        exact List.length_eq_zero_iff.1 (by omega)
      rw [hnil]
      simp
  | case2 table middle above hdrop hle =>
      have hone : table = middle :: above := by
        rw [← hdrop, show table.length / 2 = 0 by omega, List.drop_zero]
      have habove : above = [] := by
        rw [hone] at hle
        simpa using hle
      rw [hone, habove, List.mem_singleton, beq_iff_eq, eq_comm]
  | case3 table middle above hdrop hle hlt ih =>
      have hsplit : table.take (table.length / 2) ++ middle :: above = table := by
        rw [← hdrop, List.take_append_drop]
      have hsorted : (middle :: above).Pairwise (· < ·) := by
        rw [← hdrop]
        exact h.sublist (List.drop_sublist _ _)
      have hnot : word ∉ middle :: above := by
        intro hmem
        rcases List.mem_cons.1 hmem with rfl | hmem
        · exact String.lt_irrefl _ hlt
        · exact String.lt_irrefl _ (String.lt_trans hlt ((List.pairwise_cons.1 hsorted).1 _ hmem))
      have hmem : word ∈ table ↔ word ∈ table.take (table.length / 2) := by
        conv_lhs => rw [← hsplit, List.mem_append, or_iff_left hnot]
      rw [ih (h.sublist (List.take_sublist _ _)), hmem]
  | case4 table middle above hdrop hle hlt ih =>
      have hsplit : table.take (table.length / 2) ++ middle :: above = table := by
        rw [← hdrop, List.take_append_drop]
      have hnot : word ∉ table.take (table.length / 2) := by
        intro hmem
        rw [← hsplit] at h
        exact hlt ((List.pairwise_append.1 h).2.2 _ hmem _ List.mem_cons_self)
      have hmem : word ∈ table ↔ word ∈ middle :: above := by
        conv_lhs => rw [← hsplit, List.mem_append, or_iff_right hnot]
      rw [← hdrop] at ih hmem ⊢
      rw [ih (h.sublist (List.drop_sublist _ _)), hmem]

theorem increasing_quotedKeywords : quotedKeywords.Pairwise (· < ·) :=
  List.isChain_iff_pairwise.1 (by decide +kernel)

/-! Plain identifiers. -/

/-- The signs `[a-z_]`. -/
def startSigns : Set Char := Set.Icc 'a' 'z' ∪ {'_'}

/-- The signs `[a-z0-9_$]`. -/
def wordSigns : Set Char := startSigns ∪ Set.Icc '0' '9' ∪ {'$'}

/-- The identifier has the form `[a-z_][a-z0-9_$]*` and is no keyword. -/
def IsPlain (name : String) : Prop :=
  (∃ c rest, name.toList = c :: rest ∧ c ∈ startSigns ∧ ∀ d ∈ rest, d ∈ wordSigns) ∧
    name ∉ quotedKeywords

theorem isPlainStart_iff {c : Char} : isPlainStart c = true ↔ c ∈ startSigns := by
  simp [isPlainStart, startSigns, Char.isLower, Char.le_def, or_comm]

theorem isPlainChar_iff {c : Char} : isPlainChar c = true ↔ c ∈ wordSigns := by
  simp [isPlainChar, isPlainStart_iff, wordSigns, Char.isDigit, Char.le_def, or_comm]

theorem isPlainWord_iff {word : List Char} : isPlainWord word = true ↔
    ∃ c rest, word = c :: rest ∧ c ∈ startSigns ∧ ∀ d ∈ rest, d ∈ wordSigns := by
  cases word with
  | nil => simp [isPlainWord]
  | cons c rest => simp [isPlainWord, isPlainStart_iff, isPlainChar_iff]

theorem quoteIdentifier_plain {name : String} (h : IsPlain name) : quoteIdentifier name = name := by
  have hword : holdsWord name quotedKeywords = false := by
    rw [Bool.eq_false_iff, Ne, holdsWord_iff increasing_quotedKeywords]
    exact h.2
  rw [quoteIdentifier, if_pos ⟨isPlainWord_iff.2 h.1, by rw [hword]; rfl⟩]

theorem quoteIdentifier_quoted {name : String} (h : ¬ IsPlain name) :
    quoteIdentifier name = String.ofList ('"' :: doubleQuotes name.toList ++ ['"']) := by
  rw [quoteIdentifier, if_neg]
  rintro ⟨hform, hword⟩
  rw [Bool.not_eq_true', Bool.eq_false_iff, Ne, holdsWord_iff increasing_quotedKeywords] at hword
  exact h ⟨isPlainWord_iff.1 hform, hword⟩

theorem doubleQuotes_eq (cs : List Char) :
    doubleQuotes cs = cs.flatMap fun c => if c = '"' then ['"', '"'] else [c] := by
  induction cs with
  | nil => rfl
  | cons c cs ih =>
      rw [doubleQuotes, List.flatMap_cons, ← ih]
      split <;> rfl

/-! Reading an identifier back. -/

/-- After an opening quote, the name up to the closing quote and what follows it. -/
def readQuoted : List Char → Option (List Char × List Char)
  | [] => none
  | c :: rest =>
    if c = '"' then
      match rest with
      | [] => some ([], [])
      | d :: rest₂ =>
        if d = '"' then (readQuoted rest₂).map fun r => ('"' :: r.1, r.2) else some ([], d :: rest₂)
    else (readQuoted rest).map fun r => (c :: r.1, r.2)

/-- The name of the identifier that comes next, and what follows it. -/
def readIdentifier : List Char → Option (String × List Char)
  | [] => none
  | c :: rest =>
    if c = '"' then (readQuoted rest).map fun r => (String.ofList r.1, r.2)
    else
      some (String.ofList ((c :: rest).takeWhile isPlainChar), (c :: rest).dropWhile isPlainChar)

/-- The name that a text gives if it is one identifier and nothing else. -/
def unquote? (text : String) : Option String :=
  match readIdentifier text.toList with
  | some (name, []) => some name
  | _ => none

/-- Nothing comes next with which an identifier would go on. -/
def EndsIdentifier (rest : List Char) : Prop := ∀ c ∈ rest.head?, c ≠ '"' ∧ isPlainChar c = false

theorem readQuoted_doubleQuotes {rest : List Char} (hrest : EndsIdentifier rest) (cs : List Char) :
    readQuoted (doubleQuotes cs ++ '"' :: rest) = some (cs, rest) := by
  induction cs with
  | nil =>
      rw [doubleQuotes, List.nil_append, readQuoted.eq_def]
      cases rest with
      | nil => rfl
      | cons d rest => simp [(hrest d rfl).1]
  | cons c cs ih =>
      rw [doubleQuotes]
      by_cases hc : c = '"'
      · rw [if_pos hc, List.cons_append, List.cons_append, readQuoted.eq_def]
        simp only [if_true, ih, Option.map_some, hc]
      · rw [if_neg hc, List.cons_append, readQuoted.eq_def]
        simp only [if_neg hc, ih, Option.map_some]

/-- A quoted name is read back in front of whatever ends it. -/
theorem readIdentifier_quoteIdentifier (name : String) {rest : List Char}
    (hrest : EndsIdentifier rest) :
    readIdentifier ((quoteIdentifier name).toList ++ rest) = some (name, rest) := by
  by_cases h : IsPlain name
  · obtain ⟨c, cs, hname, hc, hcs⟩ := h.1
    have hplain : ∀ d ∈ c :: cs, isPlainChar d = true := by
      intro d hd
      rw [isPlainChar_iff]
      rcases List.mem_cons.1 hd with rfl | hd
      · exact .inl (.inl hc)
      · exact hcs d hd
    have hquote : c ≠ '"' := by
      rintro rfl
      exact absurd (hplain _ List.mem_cons_self) (by decide)
    have hstop : rest.takeWhile isPlainChar = [] ∧ rest.dropWhile isPlainChar = rest := by
      cases rest with
      | nil => exact ⟨rfl, rfl⟩
      | cons d rest => simp [(hrest d rfl).2]
    rw [quoteIdentifier_plain h, hname, List.cons_append, readIdentifier, if_neg hquote,
      ← List.cons_append, List.takeWhile_append_of_pos hplain, List.dropWhile_append_of_pos hplain,
      hstop.1, hstop.2, List.append_nil, ← hname, String.ofList_toList]
  · rw [quoteIdentifier_quoted h, String.toList_ofList, List.append_assoc, List.cons_append,
      readIdentifier, if_pos rfl, List.singleton_append, readQuoted_doubleQuotes hrest,
      Option.map_some, String.ofList_toList]

theorem unquote?_quoteIdentifier (name : String) : unquote? (quoteIdentifier name) = some name := by
  have hnil : EndsIdentifier [] := fun c hc => (Option.not_mem_none c hc).elim
  have hread := readIdentifier_quoteIdentifier name hnil
  rw [List.append_nil] at hread
  rw [unquote?, hread]

end Plan

namespace Query

open Text

/-! The scan of an identifier. -/

/-- The bytes of a name between double quotes, those of the name written twice. -/
inductive NameBody : Bytes → Prop
  | nil : NameBody []
  | plain {c : UInt8} {b : Bytes} (hc : c ≠ 0x22) (h : NameBody b) : NameBody (c :: b)
  | doubled {b : Bytes} (h : NameBody b) : NameBody (0x22 :: 0x22 :: b)

namespace NameBody

variable {x b : Bytes}

theorem plains (hx : 0x22 ∉ x) (h : NameBody b) : NameBody (x ++ b) := by
  induction x with
  | nil => exact h
  | cons c x ih =>
      obtain ⟨hc, hx⟩ := List.ne_and_not_mem_of_not_mem_cons hx
      exact .plain (Ne.symm hc) (ih hx)

theorem identifierLength (h : NameBody b) : identifierLength (b ++ [0x22]) = b.length + 1 := by
  induction h with
  | nil => exact identifierLength_last (by decide)
  | plain hc _ ih => rw [List.cons_append, identifierLength_plain _ hc, ih]; rfl
  | doubled _ ih =>
      rw [List.cons_append, List.cons_append, identifierLength_doubled, ih]
      rfl

theorem closesName (h : NameBody b) : closesName (b ++ [0x22]) = true := by
  induction h with
  | nil => rfl
  | plain hc _ ih =>
      rw [List.cons_append, Query.closesName.eq_def]
      simp only [hc, if_false, ih]
  | doubled _ ih => simp [Query.closesName, ih]

theorem doubleQuotes (cs : List Char) :
    NameBody ((Plan.doubleQuotes cs).flatMap String.utf8EncodeChar) := by
  induction cs with
  | nil => exact .nil
  | cons c cs ih =>
      rw [Plan.doubleQuotes]
      split
      · rw [List.flatMap_cons, List.flatMap_cons]
        exact .doubled ih
      · rename_i hc
        rw [List.flatMap_cons]
        refine plains (fun hmem => hc ?_) ih
        exact (ofNat_of_mem_encodeChar hmem (by decide)).symm

end NameBody

/-- The text is a single token, neither a literal nor left open. -/
def IsOneToken (text : String) : Prop :=
  scan text = [] ∧ tokenStarts text = [0] ∧ Closed text

theorem isOneToken_of_form {text : String} {c : UInt8} {x : Bytes} {a : Bool}
    (htext : utf8 text = c :: x) (h : TokenForm false c x (.code (x.length + 1) a))
    (hclosed : leavesOpen (c :: x) = false) : IsOneToken text := by
  have hform : TokenForm false c (x ++ []) (.code (x.length + 1) a) := by
    rwa [List.append_nil]
  have hscan := scanFrom_token 0 hform rfl
  have hstarts := tokenStartsFrom_token 0 hform rfl
  have hclose := closedFrom_token hform rfl
  rw [List.append_nil] at hscan hstarts hclose
  refine ⟨?_, ?_, ?_⟩
  · rw [scan, htext, hscan, scanFrom]
    rfl
  · rw [tokenStarts, htext, hstarts, tokenStartsFrom]
  · rw [Closed, htext, hclose, hclosed, closedFrom]
    rfl

theorem isOneToken_quoted (cs : List Char) :
    IsOneToken (String.ofList ('"' :: Plan.doubleQuotes cs ++ ['"'])) := by
  have hbody := NameBody.doubleQuotes cs
  have hbytes : utf8 (String.ofList ('"' :: Plan.doubleQuotes cs ++ ['"'])) =
      0x22 :: ((Plan.doubleQuotes cs).flatMap String.utf8EncodeChar ++ [0x22]) := by
    rw [utf8_ofList, List.flatMap_append]
    rfl
  refine isOneToken_of_form hbytes (a := true) ?_ ?_
  · have hform : TokenForm false 0x22
        ((Plan.doubleQuotes cs).flatMap String.utf8EncodeChar ++ [0x22]) _ := .name
    have hlength : 1 + identifierLength ((Plan.doubleQuotes cs).flatMap String.utf8EncodeChar ++
        [0x22]) = ((Plan.doubleQuotes cs).flatMap String.utf8EncodeChar ++ [0x22]).length + 1 := by
      rw [hbody.identifierLength, List.length_append, Nat.add_comm]
      rfl
    rwa [hlength] at hform
  · rw [leavesOpen, hbody.closesName]
    rfl

theorem encodeChar_plain {c : Char} (hc : Plan.isPlainChar c = true) :
    ∃ b, String.utf8EncodeChar c = [b] ∧ isWordByte b = true ∧
      (Plan.isPlainStart c = true → isWordStart b = true) := by
  have hlt : c.toNat < 128 := by
    have hval : c.toNat = c.val.toNat := rfl
    simp only [Plan.isPlainChar, Plan.isPlainStart, Char.isLower, Char.isDigit, Bool.or_eq_true,
      Bool.and_eq_true, decide_eq_true_eq, beq_iff_eq, UInt32.le_iff_toNat_le, ge_iff_le] at hc
    rcases hc with ((h | rfl) | h) | rfl
    · have := h.2
      change c.val.toNat ≤ 122 at this
      omega
    · decide
    · have := h.2
      change c.val.toNat ≤ 57 at this
      omega
    · decide
  have hbytes : ∀ n : Fin 128, Plan.isPlainChar (Char.ofNat n) = true →
      isWordByte (UInt8.ofNat n) = true ∧
        (Plan.isPlainStart (Char.ofNat n) = true → isWordStart (UInt8.ofNat n) = true) := by
    decide +kernel
  have hbyte := hbytes ⟨c.toNat, hlt⟩
  rw [Char.ofNat_toNat] at hbyte
  refine ⟨UInt8.ofNat c.toNat, ?_, hbyte hc⟩
  rw [encodeChar_eq, if_pos (by omega)]

theorem isOneToken_word {text : String} {c : UInt8} {x : Bytes} (htext : utf8 text = c :: x)
    (hc : isWordStart c = true) (hx : ∀ b ∈ x, isWordByte b = true) : IsOneToken text := by
  have hmark : isStringMark [c] x = false := by
    cases x with
    | nil => simp [isStringMark_singleton, startsQuote, startsUnicodeQuote]
    | cons d x =>
        have hd : d ≠ 0x27 ∧ d ≠ 0x26 := by
          constructor <;> rintro rfl <;> exact absurd (hx _ List.mem_cons_self) (by decide)
        simp [isStringMark_singleton, startsQuote, startsUnicodeQuote, hd]
  have hlength : wordLength (c :: x) = x.length + 1 := by
    have hall : ∀ b ∈ c :: x, isWordByte b = true :=
      List.forall_mem_cons.2 ⟨isWordStart_isWordByte hc, hx⟩
    rw [wordLength, List.takeWhile_eq_self_iff.2 hall, List.length_cons]
  have hform : TokenForm false c x _ := .word hc (by simp [hmark])
  rw [hlength] at hform
  refine isOneToken_of_form htext hform ?_
  have hne : c ≠ 0x27 ∧ c ≠ 0x24 ∧ c ≠ 0x22 ∧ c ≠ 0x2F ∧ c ≠ 0x2D := by
    refine ⟨?_, ?_, ?_, ?_, ?_⟩ <;> rintro rfl <;> cases hc
  simp [leavesOpen, opensLiteral, hmark, hne]

theorem isOneToken_plain {name : String} (h : Plan.isPlainWord name.toList = true) :
    IsOneToken name := by
  cases hname : name.toList with
  | nil =>
      rw [hname] at h
      cases h
  | cons c cs =>
      rw [hname, Plan.isPlainWord, Bool.and_eq_true, List.all_eq_true] at h
      obtain ⟨hc, hcs⟩ := h
      obtain ⟨b, hb, -, hstart⟩ := encodeChar_plain (c := c) (by rw [Plan.isPlainChar, hc]; rfl)
      have hbytes : utf8 name = b :: cs.flatMap String.utf8EncodeChar := by
        rw [utf8, hname, List.flatMap_cons, hb]
        rfl
      refine isOneToken_word hbytes (hstart hc) fun d hd => ?_
      obtain ⟨e, he, hd⟩ := List.mem_flatMap.1 hd
      obtain ⟨b', hb', hword, -⟩ := encodeChar_plain (hcs e he)
      rw [hb', List.mem_singleton] at hd
      rwa [hd]

end Query

namespace Plan

/-- An identifier without need of quotes is written as it is, and any other between double quotes
with its own ones doubled. Either way the name can be read back, so that different names are written
differently, and the scanner of query text finds one token there that is closed and no literal. -/
theorem quoteIdentifier_faithful (name : String) :
    (IsPlain name → quoteIdentifier name = name) ∧
    (¬ IsPlain name → quoteIdentifier name = "\"" ++
      String.ofList (name.toList.flatMap fun c => if c = '"' then ['"', '"'] else [c]) ++ "\"") ∧
    unquote? (quoteIdentifier name) = some name ∧
    (∀ other, quoteIdentifier other = quoteIdentifier name → other = name) ∧
    Query.scan (quoteIdentifier name) = [] ∧ Query.tokenStarts (quoteIdentifier name) = [0] ∧
    Query.Closed (quoteIdentifier name) := by
  refine ⟨quoteIdentifier_plain, fun h => ?_, unquote?_quoteIdentifier name, fun other h => ?_, ?_⟩
  · rw [quoteIdentifier_quoted h, doubleQuotes_eq, ← String.toList_inj]
    simp only [String.toList_append, String.toList_ofList]
    rfl
  · have hread := unquote?_quoteIdentifier other
    rw [h, unquote?_quoteIdentifier] at hread
    exact (Option.some.inj hread).symm
  · by_cases h : IsPlain name
    · rw [quoteIdentifier_plain h]
      exact Query.isOneToken_plain (isPlainWord_iff.2 h.1)
    · rw [quoteIdentifier_quoted h]
      exact Query.isOneToken_quoted name.toList

end Plan

end PlanFeedback
