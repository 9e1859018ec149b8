import Mathlib.Data.List.Basic
import PlanFeedback.Text.Utf8

/-!
The laws of UTF-8 text: a text is read back from its bytes, and bytes that spell a text may be cut
wherever a character starts.
-/
namespace PlanFeedback.Text

theorem toNat_ofNat {n : Nat} (h : n < 256) : (UInt8.ofNat n).toNat = n := by
  rw [UInt8.toNat_ofNat', Nat.mod_eq_of_lt h]

theorem ofNat_lt_iff {n m : Nat} {b : UInt8} (hn : n < 256) (hb : b.toNat = m) :
    UInt8.ofNat n < b ↔ n < m := by
  rw [UInt8.lt_iff_toNat_lt, toNat_ofNat hn, hb]

theorem isContinuation_ofNat {n : Nat} (h : n < 256) :
    isContinuation (UInt8.ofNat n) = true ↔ 0x80 ≤ n ∧ n < 0xC0 := by
  have hl : (0x80 : UInt8) ≤ UInt8.ofNat n ↔ 0x80 ≤ n := UInt8.ofNat_le_iff_le (by decide) h
  have hu : UInt8.ofNat n < 0xC0 ↔ n < 0xC0 := ofNat_lt_iff h rfl
  simp only [isContinuation, Bool.and_eq_true, decide_eq_true_eq, hl, hu]

theorem isContinuation_payload (n : Nat) :
    isContinuation (UInt8.ofNat (n % 0x40 + 0x80)) = true :=
  (isContinuation_ofNat (by omega)).2 (by omega)

theorem isContinuation_lead {n : Nat} (h : n < 256) (hn : n < 0x80 ∨ 0xC0 ≤ n) :
    isContinuation (UInt8.ofNat n) = false := by
  rw [Bool.eq_false_iff, Ne, isContinuation_ofNat h]
  omega

theorem isContinuation_of_lt {b : UInt8} (h : b < 0x80) : isContinuation b = false := by
  rw [isContinuation, Bool.and_eq_false_iff, decide_eq_false_iff_not]
  exact Or.inl (UInt8.not_le.2 h)

theorem continued?_succ (m n k : Nat) (rest : Bytes) :
    continued? m (k + 1) (UInt8.ofNat (n % 0x40 + 0x80) :: rest) =
      continued? (m * 0x40 + n % 0x40) k rest := by
  have hb : n % 0x40 + 0x80 < 256 := by omega
  have hp : continuation? (UInt8.ofNat (n % 0x40 + 0x80)) = some (n % 0x40) := by
    rw [continuation?, if_pos (isContinuation_payload n), toNat_ofNat hb, Nat.add_sub_cancel]
  simp only [continued?, hp, Option.bind_eq_bind, Option.bind_some]

theorem scalar?_toNat {c : Char} {least : Nat} (h : least ≤ c.toNat) :
    scalar? least c.toNat = some c := by
  have hv : c.toNat.isValidChar := c.valid
  rw [scalar?, if_pos ⟨h, hv⟩, Char.ofNat_toNat]

theorem toNat_lt_scalars (c : Char) : c.toNat < 0x110000 := by
  have h : c.toNat.isValidChar := c.valid
  rcases h with h | h <;> omega

theorem character?_one {v : Nat} (h : v < 0x80) (rest : Bytes) :
    character? (UInt8.ofNat v) rest = some (Char.ofNat v) := by
  have h1 : UInt8.ofNat v < 0x80 := (ofNat_lt_iff (m := 0x80) (by omega) rfl).2 h
  rw [character?, if_pos h1, toNat_ofNat (by omega)]

theorem character?_two {v : Nat} (h : v < 0x20) (rest : Bytes) :
    character? (UInt8.ofNat (v + 0xC0)) rest = (continued? v 1 rest).bind (scalar? 0x80) := by
  have h1 : ¬ UInt8.ofNat (v + 0xC0) < 0x80 := by
    rw [ofNat_lt_iff (m := 0x80) (by omega) rfl]; omega
  have h2 : ¬ UInt8.ofNat (v + 0xC0) < 0xC0 := by
    rw [ofNat_lt_iff (m := 0xC0) (by omega) rfl]; omega
  have h3 : UInt8.ofNat (v + 0xC0) < 0xE0 := by
    rw [ofNat_lt_iff (m := 0xE0) (by omega) rfl]; omega
  rw [character?, if_neg h1, if_neg h2, if_pos h3, toNat_ofNat (by omega), Nat.add_sub_cancel]

theorem character?_three {v : Nat} (h : v < 0x10) (rest : Bytes) :
    character? (UInt8.ofNat (v + 0xE0)) rest = (continued? v 2 rest).bind (scalar? 0x800) := by
  have h1 : ¬ UInt8.ofNat (v + 0xE0) < 0x80 := by
    rw [ofNat_lt_iff (m := 0x80) (by omega) rfl]; omega
  have h2 : ¬ UInt8.ofNat (v + 0xE0) < 0xC0 := by
    rw [ofNat_lt_iff (m := 0xC0) (by omega) rfl]; omega
  have h3 : ¬ UInt8.ofNat (v + 0xE0) < 0xE0 := by
    rw [ofNat_lt_iff (m := 0xE0) (by omega) rfl]; omega
  have h4 : UInt8.ofNat (v + 0xE0) < 0xF0 := by
    rw [ofNat_lt_iff (m := 0xF0) (by omega) rfl]; omega
  rw [character?, if_neg h1, if_neg h2, if_neg h3, if_pos h4, toNat_ofNat (by omega),
    Nat.add_sub_cancel]

theorem character?_four {v : Nat} (h : v < 0x08) (rest : Bytes) :
    character? (UInt8.ofNat (v + 0xF0)) rest = (continued? v 3 rest).bind (scalar? 0x10000) := by
  have h1 : ¬ UInt8.ofNat (v + 0xF0) < 0x80 := by
    rw [ofNat_lt_iff (m := 0x80) (by omega) rfl]; omega
  have h2 : ¬ UInt8.ofNat (v + 0xF0) < 0xC0 := by
    rw [ofNat_lt_iff (m := 0xC0) (by omega) rfl]; omega
  have h3 : ¬ UInt8.ofNat (v + 0xF0) < 0xE0 := by
    rw [ofNat_lt_iff (m := 0xE0) (by omega) rfl]; omega
  have h4 : ¬ UInt8.ofNat (v + 0xF0) < 0xF0 := by
    rw [ofNat_lt_iff (m := 0xF0) (by omega) rfl]; omega
  rw [character?, if_neg h1, if_neg h2, if_neg h3, if_neg h4, toNat_ofNat (by omega),
    Nat.add_sub_cancel]

theorem encodeChar_eq (c : Char) :
    String.utf8EncodeChar c =
      if c.toNat ≤ 0x7F then [UInt8.ofNat c.toNat]
      else if c.toNat ≤ 0x7FF then
        [UInt8.ofNat (c.toNat / 64 % 0x20 + 0xC0), UInt8.ofNat (c.toNat % 0x40 + 0x80)]
      else if c.toNat ≤ 0xFFFF then
        [UInt8.ofNat (c.toNat / 4096 % 0x10 + 0xE0), UInt8.ofNat (c.toNat / 64 % 0x40 + 0x80),
          UInt8.ofNat (c.toNat % 0x40 + 0x80)]
      else
        [UInt8.ofNat (c.toNat / 262144 % 0x08 + 0xF0), UInt8.ofNat (c.toNat / 4096 % 0x40 + 0x80),
          UInt8.ofNat (c.toNat / 64 % 0x40 + 0x80), UInt8.ofNat (c.toNat % 0x40 + 0x80)] := rfl

/-- The bytes of a character: one that starts it and then continuation bytes. The character is read
off them, whatever follows. -/
theorem encodeChar_cons (c : Char) :
    ∃ a tail, String.utf8EncodeChar c = a :: tail ∧ isContinuation a = false ∧
      (∀ b ∈ tail, isContinuation b = true) ∧ ∀ rest, character? a (tail ++ rest) = some c := by
  have hmax := toNat_lt_scalars c
  rw [encodeChar_eq]
  by_cases h1 : c.toNat ≤ 0x7F
  · refine ⟨_, _, if_pos h1, isContinuation_lead (by omega) (by omega), by simp, fun rest => ?_⟩
    rw [character?_one (by omega), Char.ofNat_toNat]
  by_cases h2 : c.toNat ≤ 0x7FF
  · rw [if_neg h1, if_pos h2]
    refine ⟨_, _, rfl, isContinuation_lead (by omega) (by omega),
      by simp only [List.forall_mem_cons, isContinuation_payload, List.not_mem_nil, false_implies,
        implies_true, and_self], fun rest => ?_⟩
    have hn : c.toNat / 64 % 0x20 * 0x40 + c.toNat % 0x40 = c.toNat := by omega
    rw [character?_two (by omega), List.cons_append, continued?_succ, hn, continued?,
      Option.bind_some, scalar?_toNat (by omega)]
  by_cases h3 : c.toNat ≤ 0xFFFF
  · rw [if_neg h1, if_neg h2, if_pos h3]
    refine ⟨_, _, rfl, isContinuation_lead (by omega) (by omega),
      by simp only [List.forall_mem_cons, isContinuation_payload, List.not_mem_nil, false_implies,
        implies_true, and_self], fun rest => ?_⟩
    have hn : (c.toNat / 4096 % 0x10 * 0x40 + c.toNat / 64 % 0x40) * 0x40 + c.toNat % 0x40 =
        c.toNat := by omega
    rw [character?_three (by omega), List.cons_append, continued?_succ, List.cons_append,
      continued?_succ, hn, continued?, Option.bind_some, scalar?_toNat (by omega)]
  · rw [if_neg h1, if_neg h2, if_neg h3]
    refine ⟨_, _, rfl, isContinuation_lead (by omega) (by omega),
      by simp only [List.forall_mem_cons, isContinuation_payload, List.not_mem_nil, false_implies,
        implies_true, and_self], fun rest => ?_⟩
    have hn : ((c.toNat / 262144 % 0x08 * 0x40 + c.toNat / 4096 % 0x40) * 0x40 +
        c.toNat / 64 % 0x40) * 0x40 + c.toNat % 0x40 = c.toNat := by omega
    rw [character?_four (by omega), List.cons_append, continued?_succ, List.cons_append,
      continued?_succ, List.cons_append, continued?_succ, hn, continued?, Option.bind_some,
      scalar?_toNat (by omega)]

theorem charactersFrom_append (tail rest : Bytes) :
    charactersFrom tail.length (tail ++ rest) = charactersFrom 0 rest := by
  induction tail with
  | nil => rfl
  | cons b tail ih => simpa only [List.length_cons, List.cons_append, charactersFrom] using ih

theorem characters_encode (cs : List Char) :
    charactersFrom 0 (cs.flatMap String.utf8EncodeChar) = cs.map some := by
  induction cs with
  | nil => rfl
  | cons c cs ih =>
      obtain ⟨a, tail, hc, -, -, hread⟩ := encodeChar_cons c
      have hlen : c.utf8Size - 1 = tail.length := by
        rw [← String.length_utf8EncodeChar, hc, List.length_cons, Nat.add_sub_cancel]
      rw [List.flatMap_cons, hc, List.cons_append, charactersFrom, hread]
      simp only [hlen, charactersFrom_append, ih, List.map_cons]

@[simp] theorem characters_utf8 (s : String) : characters (utf8 s) = s.toList.map some :=
  characters_encode s.toList

theorem mapM_id_some {α : Type} (xs : List α) : (xs.map some).mapM id = some xs := by
  induction xs with
  | nil => rfl
  | cons x xs ih => simp only [List.map_cons, List.mapM_cons, id, ih]; rfl

@[simp] theorem ofUtf8?_utf8 (s : String) : ofUtf8? (utf8 s) = some s := by
  rw [ofUtf8?, decode?, characters_utf8, mapM_id_some, Option.map_some, String.ofList_toList]

@[simp] theorem ofUtf8_utf8 (s : String) : ofUtf8 (utf8 s) = s := by
  rw [ofUtf8, ofUtf8?_utf8, Option.getD_some]

theorem utf8_injective : Function.Injective utf8 := fun s t h => by
  rw [← ofUtf8_utf8 s, h, ofUtf8_utf8]

@[simp] theorem utf8_append (s t : String) : utf8 (s ++ t) = utf8 s ++ utf8 t := by
  simp only [utf8, String.toList_append, List.flatMap_append]

theorem utf8_ofList (cs : List Char) : utf8 (String.ofList cs) = cs.flatMap String.utf8EncodeChar := by
  rw [utf8, String.toList_ofList]

def IsText (bytes : Bytes) : Prop := ∃ s : String, utf8 s = bytes

/-- No character goes on where the bytes begin. -/
def StartsFresh (bytes : Bytes) : Prop := ∀ b ∈ bytes.head?, isContinuation b = false

theorem isText_utf8 (s : String) : IsText (utf8 s) := ⟨s, rfl⟩

theorem IsText.utf8_ofUtf8 {bytes : Bytes} (h : IsText bytes) : utf8 (ofUtf8 bytes) = bytes := by
  obtain ⟨s, rfl⟩ := h
  rw [ofUtf8_utf8]

theorem IsText.append {x y : Bytes} (hx : IsText x) (hy : IsText y) : IsText (x ++ y) := by
  obtain ⟨s, rfl⟩ := hx
  obtain ⟨t, rfl⟩ := hy
  exact ⟨s ++ t, utf8_append s t⟩

theorem isText_iff_chars {bytes : Bytes} :
    IsText bytes ↔ ∃ cs : List Char, cs.flatMap String.utf8EncodeChar = bytes := by
  constructor
  · rintro ⟨s, rfl⟩
    exact ⟨s.toList, rfl⟩
  · rintro ⟨cs, rfl⟩
    exact ⟨String.ofList cs, utf8_ofList cs⟩

theorem startsFresh_nil : StartsFresh [] := by
  intro b h
  cases h

theorem startsFresh_cons {b : UInt8} {bytes : Bytes} :
    StartsFresh (b :: bytes) ↔ isContinuation b = false := by
  simp only [StartsFresh, List.head?_cons, Option.mem_some_iff, forall_eq']

/-- The bytes of a text may be cut where a character starts. -/
theorem IsText.split {x y : Bytes} (h : IsText (x ++ y)) (hy : StartsFresh y) :
    IsText x ∧ IsText y := by
  obtain ⟨cs, hcs⟩ := isText_iff_chars.1 h
  clear h
  induction cs generalizing x with
  | nil =>
      obtain ⟨rfl, rfl⟩ := List.append_eq_nil_iff.1 hcs.symm
      exact ⟨isText_utf8 "", isText_utf8 ""⟩
  | cons c cs ih =>
      cases x with
      | nil => exact ⟨isText_utf8 "", isText_iff_chars.2 ⟨_, hcs⟩⟩
      | cons b x =>
          obtain ⟨a, tail, hc, -, htail, -⟩ := encodeChar_cons c
          rw [List.flatMap_cons, hc, List.cons_append, List.cons_append, List.cons.injEq] at hcs
          obtain ⟨rfl, hcs⟩ := hcs
          rcases List.append_eq_append_iff.1 hcs with ⟨more, rfl, hrest⟩ | ⟨more, rfl, rfl⟩
          · obtain ⟨hx, hy'⟩ := ih hrest
            have hchar : IsText (a :: tail) := isText_iff_chars.2 ⟨[c], by simp [hc]⟩
            exact ⟨hchar.append hx, hy'⟩
          · cases more with
            | nil =>
                rw [List.append_nil] at hc
                exact ⟨isText_iff_chars.2 ⟨[c], by simp [hc]⟩, isText_iff_chars.2 ⟨cs, rfl⟩⟩
            | cons d more =>
                have hd := htail d (List.mem_append_right x List.mem_cons_self)
                rw [startsFresh_cons.1 hy] at hd
                cases hd

theorem toNat_ofNat_char {n : Nat} (h : n.isValidChar) : (Char.ofNat n).toNat = n := by
  rw [Char.ofNat, dif_pos h]
  rfl

/-- An ASCII byte belongs to its own character only. -/
theorem ofNat_of_mem_encodeChar {c : Char} {a : UInt8} (h : a ∈ String.utf8EncodeChar c)
    (ha : a < 0x80) : Char.ofNat a.toNat = c := by
  obtain ⟨b, tail, hchar, -, htail, hread⟩ := encodeChar_cons c
  rw [hchar] at h
  rcases List.mem_cons.1 h with rfl | h
  · have hread := hread []
    rw [character?, if_pos ha] at hread
    exact Option.some.inj hread
  · have hcontinues := htail a h
    rw [isContinuation_of_lt ha] at hcontinues
    cases hcontinues

theorem encodeChar_ascii {c : Char} {a : UInt8} {tail : Bytes}
    (h : String.utf8EncodeChar c = a :: tail) (ha : a < 0x80) : tail = [] := by
  have hc : Char.ofNat a.toNat = c :=
    ofNat_of_mem_encodeChar (by rw [h]; exact List.mem_cons_self) ha
  have hlt : a.toNat < 0x80 := UInt8.lt_iff_toNat_lt.1 ha
  have hn : c.toNat ≤ 0x7F := by
    rw [← hc, toNat_ofNat_char (Or.inl (by omega))]
    omega
  rw [encodeChar_eq, if_pos hn, List.cons.injEq] at h
  exact h.2.symm

/-- After an ASCII byte a character starts. -/
theorem IsText.split_ascii {x y : Bytes} {d : UInt8} (h : IsText (x ++ d :: y)) (hd : d < 0x80) :
    IsText (x ++ [d]) ∧ IsText y := by
  obtain ⟨hx, hdy⟩ := h.split (startsFresh_cons.2 (isContinuation_of_lt hd))
  obtain ⟨cs, hcs⟩ := isText_iff_chars.1 hdy
  cases cs with
  | nil => cases hcs
  | cons c cs =>
      obtain ⟨a, tail, hc, -⟩ := encodeChar_cons c
      rw [List.flatMap_cons, hc, List.cons_append, List.cons.injEq] at hcs
      obtain ⟨rfl, hcs⟩ := hcs
      obtain rfl := encodeChar_ascii hc hd
      exact ⟨hx.append (isText_iff_chars.2 ⟨[c], by simp [hc]⟩), isText_iff_chars.2 ⟨cs, hcs⟩⟩

theorem IsText.startsFresh {y : Bytes} (h : IsText y) : StartsFresh y := by
  obtain ⟨cs, rfl⟩ := isText_iff_chars.1 h
  cases cs with
  | nil => exact startsFresh_nil
  | cons c cs =>
      obtain ⟨a, tail, hc, ha, -⟩ := encodeChar_cons c
      rw [List.flatMap_cons, hc]
      exact startsFresh_cons.2 ha

/-- A cut is a character boundary exactly if a character starts behind it. -/
theorem isBoundary_append (x y : Bytes) :
    isBoundary (x ++ y) x.length = true ↔ StartsFresh y := by
  rw [isBoundary, List.drop_left]
  cases y with
  | nil =>
      simp only [List.append_nil, Nat.le_refl, decide_true, true_iff]
      exact startsFresh_nil
  | cons b y => simp only [startsFresh_cons, Bool.not_eq_true']

theorem length_utf8 (s : String) : (utf8 s).length = s.utf8ByteSize := by
  have hbytes : s.toByteArray = (utf8 s).toByteArray := by
    rw [← String.ofList_toList (s := s), String.toByteArray_ofList, List.utf8Encode, utf8,
      String.toList_ofList]
  rw [← String.size_toByteArray, hbytes, List.size_toByteArray]

theorem isBoundary_le {text : Bytes} {i : Nat} (h : isBoundary text i = true) :
    i ≤ text.length := by
  rw [isBoundary] at h
  split at h
  · exact of_decide_eq_true h
  · rename_i hdrop
    have hlength := congrArg List.length hdrop
    rw [List.length_drop, List.length_cons] at hlength
    omega

/-- A text is cut in two at a character boundary. -/
theorem isBoundary_iff {text : String} {i : Nat} :
    isBoundary (utf8 text) i = true ↔
      ∃ before after : String, text = before ++ after ∧ before.utf8ByteSize = i := by
  constructor
  · intro h
    have hsplit : utf8 text = (utf8 text).take i ++ (utf8 text).drop i :=
      (List.take_append_drop i _).symm
    have hlength : ((utf8 text).take i).length = i := List.length_take_of_le (isBoundary_le h)
    have hfresh : StartsFresh ((utf8 text).drop i) := by
      rw [← isBoundary_append ((utf8 text).take i), ← hsplit, hlength]
      exact h
    have htext : IsText ((utf8 text).take i ++ (utf8 text).drop i) := hsplit ▸ isText_utf8 text
    obtain ⟨⟨before, hbefore⟩, ⟨after, hafter⟩⟩ := htext.split hfresh
    refine ⟨before, after, utf8_injective ?_, ?_⟩
    · rw [utf8_append, hbefore, hafter, ← hsplit]
    · rw [← length_utf8, hbefore, hlength]
  · rintro ⟨before, after, rfl, rfl⟩
    rw [utf8_append, ← length_utf8, isBoundary_append]
    exact (isText_utf8 after).startsFresh

/-- A character boundary that does not lie before a first cut is a cut of the rest. -/
theorem cut_behind {before rest : String} {i : Nat} (hle : before.utf8ByteSize ≤ i)
    (h : isBoundary (utf8 (before ++ rest)) i = true) :
    ∃ piece after : String, rest = piece ++ after ∧ (before ++ piece).utf8ByteSize = i := by
  obtain ⟨upTo, after, htext, rfl⟩ := isBoundary_iff.1 h
  have hbytes : utf8 before ++ utf8 rest = utf8 upTo ++ utf8 after := by
    rw [← utf8_append, ← utf8_append, htext]
  rw [← length_utf8, ← length_utf8] at hle
  obtain ⟨middle, hmiddle⟩ : utf8 before <+: utf8 upTo :=
    List.prefix_of_prefix_length_le ⟨utf8 rest, hbytes⟩ ⟨utf8 after, rfl⟩ hle
  have hrest : middle ++ utf8 after = utf8 rest := by
    rw [← hmiddle, List.append_assoc] at hbytes
    exact (List.append_cancel_left hbytes).symm
  have hsplit : IsText (middle ++ utf8 after) := hrest ▸ isText_utf8 rest
  obtain ⟨⟨piece, rfl⟩, -⟩ := hsplit.split (isText_utf8 after).startsFresh
  have hupTo : upTo = before ++ piece := utf8_injective (by rw [utf8_append, hmiddle])
  refine ⟨piece, after, utf8_injective ?_, congrArg String.utf8ByteSize hupTo.symm⟩
  rw [utf8_append, hrest]

/-- A slice is a piece of the text with something before and something behind it. -/
theorem slice?_isSome_iff {text : String} {start stop : Nat} :
    (slice? (utf8 text) start stop).isSome = true ↔ ∃ before piece after : String,
      text = before ++ piece ++ after ∧ before.utf8ByteSize = start ∧
        (before ++ piece).utf8ByteSize = stop := by
  rw [slice?]
  constructor
  · intro h
    obtain ⟨hle, hstart, hstop⟩ : start ≤ stop ∧ isBoundary (utf8 text) start = true ∧
        isBoundary (utf8 text) stop = true := by
      by_contra hnot
      rw [if_neg hnot] at h
      cases h
    obtain ⟨before, rest, rfl, rfl⟩ := isBoundary_iff.1 hstart
    obtain ⟨piece, after, rfl, rfl⟩ := cut_behind hle hstop
    exact ⟨before, piece, after, String.append_assoc.symm, rfl, rfl⟩
  · rintro ⟨before, piece, after, rfl, rfl, rfl⟩
    have hcut : isBoundary (utf8 (before ++ piece ++ after)) before.utf8ByteSize = true :=
      isBoundary_iff.2 ⟨before, piece ++ after, String.append_assoc, rfl⟩
    have hend : isBoundary (utf8 (before ++ piece ++ after)) (before ++ piece).utf8ByteSize = true :=
      isBoundary_iff.2 ⟨before ++ piece, after, rfl, rfl⟩
    have hle : before.utf8ByteSize ≤ (before ++ piece).utf8ByteSize := by
      rw [String.utf8ByteSize_append]
      exact Nat.le_add_right _ _
    rw [if_pos ⟨hle, hcut, hend⟩]
    rfl

end PlanFeedback.Text
