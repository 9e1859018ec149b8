import PlanFeedback.Json.Parser
import PlanFeedback.Json.Printer
import PlanFeedback.Proofs.Hexadecimal
import PlanFeedback.Proofs.Numeral
import PlanFeedback.Proofs.Utf8

/-!
A JSON value is read back from its text. The scanner makes the tokens of the value out of the text,
and the parser makes the value out of the tokens.
-/
namespace PlanFeedback.Json

open PlanFeedback.Text (hexDigit hexValue? hexValue?_hexDigit characters_utf8 utf8)

/-! The tokens of a value. -/

mutual

def tokens : Json → List Token
  | .null => [.null]
  | .bool b => [.bool b]
  | .number n => [.number n]
  | .string s => [.string s]
  | .array [] => [.openArray, .closeArray]
  | .array (v :: rest) => .openArray :: tokens v ++ itemsTokens rest
  | .object [] => [.openObject, .closeObject]
  | .object ((key, v) :: rest) =>
    .openObject :: .string key :: .colon :: tokens v ++ membersTokens rest

def itemsTokens : List Json → List Token
  | [] => [.closeArray]
  | v :: rest => .comma :: tokens v ++ itemsTokens rest

def membersTokens : List (Text × Json) → List Token
  | [] => [.closeObject]
  | (key, v) :: rest => .comma :: .string key :: .colon :: tokens v ++ membersTokens rest

end

mutual

/-- The numbers in the value are well-formed numerals. -/
def Printable : Json → Prop
  | .null | .bool _ | .string _ => True
  | .number n => n.WellFormed
  | .array items => PrintableItems items
  | .object members => PrintableMembers members

def PrintableItems : List Json → Prop
  | [] => True
  | v :: rest => Printable v ∧ PrintableItems rest

def PrintableMembers : List (Text × Json) → Prop
  | [] => True
  | (_, v) :: rest => Printable v ∧ PrintableMembers rest

end

/-! The scanner. -/

def scan (mode : Mode) (s : List Char) : Option (List Token) := tokensFrom mode (s.map some)

theorem scan_cons {mode next : Mode} {c : Char} {ts : List Token} (s : List Char)
    (h : step? mode c = some (ts, next)) : scan mode (c :: s) = (scan next s).map (ts ++ ·) := by
  rw [scan, List.map_cons, tokensFrom, signStep?, h]
  cases hs : tokensFrom next (s.map some) <;> simp [scan, hs]

theorem scan_cons_nil {mode next : Mode} {c : Char} (s : List Char)
    (h : step? mode c = some ([], next)) : scan mode (c :: s) = scan next s := by
  rw [scan_cons s h]
  simp only [List.nil_append, Option.map_id_fun', id]

/-! Strings. -/

theorem scan_short {e d : Char} (he : e ≠ 'u') (hd : escaped? e = some d) (read : List Piece)
    (s : List Char) : scan (.string read) ('\\' :: e :: s) = scan (.string (.char d :: read)) s := by
  have hback : step? (.string read) '\\' = some ([], .escape read) := rfl
  have hescape : step? (.escape read) e = some ([], .string (.char d :: read)) := by
    simp only [step?, he, if_false, hd, Option.map_some]
  rw [scan_cons_nil _ hback, scan_cons_nil _ hescape]

theorem scan_long {n : Nat} (hn : n < 0x20) (read : List Piece) (s : List Char) :
    scan (.string read)
        ('\\' :: 'u' :: '0' :: '0' :: hexDigit (n / 16) :: hexDigit (n % 16) :: s) =
      scan (.string (.unit n :: read)) s := by
  have hback : step? (.string read) '\\' = some ([], .escape read) := rfl
  have hmark : step? (.escape read) 'u' = some ([], .unit read 4 0) := rfl
  have hzero : step? (.unit read 4 0) '0' = some ([], .unit read 3 0) := rfl
  have hzero' : step? (.unit read 3 0) '0' = some ([], .unit read 2 0) := rfl
  have hhigh : step? (.unit read 2 0) (hexDigit (n / 16)) = some ([], .unit read 1 (n / 16)) := by
    simp [step?, hexValue?_hexDigit (n := n / 16) (by omega)]
  have hlow : step? (.unit read 1 (n / 16)) (hexDigit (n % 16)) =
      some ([], .string (.unit n :: read)) := by
    have hsum : 16 * (n / 16) + n % 16 = n := by omega
    simp [step?, hexValue?_hexDigit (n := n % 16) (by omega), hsum]
  rw [scan_cons_nil _ hback, scan_cons_nil _ hmark, scan_cons_nil _ hzero, scan_cons_nil _ hzero',
    scan_cons_nil _ hhigh, scan_cons_nil _ hlow]

theorem scan_escapeChar (c : Char) : ∃ p,
    (∀ read s, scan (.string read) (escapeChar c ++ s) = scan (.string (p :: read)) s) ∧
      ∀ ps, joinPieces (p :: ps) = (joinPieces ps).map (c :: ·) := by
  have hchar : ∀ e, e ≠ 'u' → escaped? e = some c → escapeChar c = ['\\', e] → ∃ p,
      (∀ read s, scan (.string read) (escapeChar c ++ s) = scan (.string (p :: read)) s) ∧
        ∀ ps, joinPieces (p :: ps) = (joinPieces ps).map (c :: ·) := by
    intro e he hd hc
    exact ⟨.char c, fun read s => by rw [hc]; exact scan_short he hd read s, fun ps => rfl⟩
  by_cases h1 : c = '"'
  · subst h1
    exact hchar '"' (by decide) rfl rfl
  by_cases h2 : c = '\\'
  · subst h2
    exact hchar '\\' (by decide) rfl rfl
  by_cases h3 : c = '\x08'
  · subst h3
    exact hchar 'b' (by decide) rfl rfl
  by_cases h4 : c = '\x0c'
  · subst h4
    exact hchar 'f' (by decide) rfl rfl
  by_cases h5 : c = '\n'
  · subst h5
    exact hchar 'n' (by decide) rfl rfl
  by_cases h6 : c = '\r'
  · subst h6
    exact hchar 'r' (by decide) rfl rfl
  by_cases h7 : c = '\t'
  · subst h7
    exact hchar 't' (by decide) rfl rfl
  by_cases h8 : c.toNat < 0x20
  · refine ⟨.unit c.toNat, fun read s => ?_, fun ps => ?_⟩
    · simp only [escapeChar, h1, h2, h3, h4, h5, h6, h7, h8, if_false, if_true]
      exact scan_long h8 read s
    · have hhigh : isHighUnit c.toNat = false := by
        simp only [isHighUnit, Bool.and_eq_false_iff, decide_eq_false_iff_not]
        omega
      have hlow : isLowUnit c.toNat = false := by
        simp only [isLowUnit, Bool.and_eq_false_iff, decide_eq_false_iff_not]
        omega
      rw [joinPieces.eq_def]
      simp only [hhigh, hlow, Bool.false_eq_true, if_false, Char.ofNat_toNat]
  · refine ⟨.char c, fun read s => ?_, fun ps => rfl⟩
    simp only [escapeChar, h1, h2, h3, h4, h5, h6, h7, h8, if_false, List.singleton_append]
    refine scan_cons_nil s ?_
    simp only [step?, h1, h2, h8, if_false]

theorem scan_escaped (cs : List Char) : ∃ ps,
    (∀ read s, scan (.string read) (cs.flatMap escapeChar ++ s) =
        scan (.string (ps.reverse ++ read)) s) ∧ joinPieces ps = some cs := by
  induction cs with
  | nil => exact ⟨[], fun read s => rfl, rfl⟩
  | cons c cs ih =>
      obtain ⟨ps, hps, hjoin⟩ := ih
      obtain ⟨p, hp, hpiece⟩ := scan_escapeChar c
      refine ⟨p :: ps, fun read s => ?_, by rw [hpiece, hjoin]; rfl⟩
      rw [List.flatMap_cons, List.append_assoc, hp, hps, List.reverse_cons, List.append_assoc]
      rfl

theorem stringText_some (t : String) :
    stringText (some t) = '"' :: (t.toList.flatMap escapeChar ++ ['"']) := rfl

theorem scan_stringText (t : Text) (s : List Char) :
    scan .between (stringText t ++ s) = (scan .between s).map (.string t :: ·) := by
  have hopen : step? .between '"' = some ([], .string []) := rfl
  cases t with
  | some t =>
      obtain ⟨ps, hps, hjoin⟩ := scan_escaped t.toList
      have hclose : step? (.string ps.reverse) '"' = some ([.string (some t)], .between) := by
        simp only [step?, if_true, List.reverse_reverse, hjoin, Option.map_some,
          String.ofList_toList]
      have htext : stringText (some t) ++ s = '"' :: (t.toList.flatMap escapeChar ++ '"' :: s) := by
        rw [stringText_some, List.cons_append, List.append_assoc]
        rfl
      rw [htext, scan_cons_nil _ hopen, hps, List.append_nil, scan_cons s hclose]
      rfl
  | none =>
      have hback : step? (.string []) '\\' = some ([], .escape []) := rfl
      have hmark : step? (.escape []) 'u' = some ([], .unit [] 4 0) := rfl
      have h1 : step? (.unit [] 4 0) 'd' = some ([], .unit [] 3 0xD) := by decide
      have h2 : step? (.unit [] 3 0xD) '8' = some ([], .unit [] 2 0xD8) := by decide
      have h3 : step? (.unit [] 2 0xD8) '0' = some ([], .unit [] 1 0xD80) := by decide
      have h4 : step? (.unit [] 1 0xD80) '0' = some ([], .string [.unit 0xD800]) := by decide
      have hclose : step? (.string [.unit 0xD800]) '"' = some ([.string none], .between) := by
        simp [step?, joinPieces, isHighUnit]
      have htext : stringText none ++ s =
          '"' :: '\\' :: 'u' :: 'd' :: '8' :: '0' :: '0' :: '"' :: s := rfl
      rw [htext, scan_cons_nil _ hopen, scan_cons_nil _ hback, scan_cons_nil _ hmark,
        scan_cons_nil _ h1, scan_cons_nil _ h2, scan_cons_nil _ h3, scan_cons_nil _ h4,
        scan_cons s hclose]
      rfl

/-! Words. -/

/-- What follows does not go on with a word. -/
def Delimited (s : List Char) : Prop := ∀ c ∈ s.head?, isWordChar c = false

theorem scan_word {w : List Char} (hw : ∀ c ∈ w, isWordChar c = true) (read s : List Char) :
    scan (.word read) (w ++ s) = scan (.word (w.reverse ++ read)) s := by
  induction w generalizing read with
  | nil => rfl
  | cons c w ih =>
      have hc : step? (.word read) c = some ([], .word (c :: read)) := by
        simp only [step?, hw c List.mem_cons_self, if_true]
      rw [List.cons_append, scan_cons_nil _ hc, ih fun d hd => hw d (List.mem_cons_of_mem c hd),
        List.reverse_cons, List.append_assoc]
      rfl

theorem scan_word_end {read s : List Char} {t : Token} (h : wordToken? read.reverse = some t)
    (hs : Delimited s) : scan (.word read) s = (scan .between s).map (t :: ·) := by
  cases s with
  | nil => simp [scan, tokensFrom, finish?, h]
  | cons c s =>
      have hc := hs c rfl
      simp only [scan, List.map_cons, tokensFrom, signStep?, step?, hc, Bool.false_eq_true,
        if_false, h]
      cases start? c with
      | none => rfl
      | some r =>
          cases hr : tokensFrom r.2 (s.map some) <;> simp [hr]

theorem isWordChar_start {c : Char} (h : isWordChar c = true) : start? c = some ([], .word [c]) := by
  have hspace : isSpace c = false := by
    rw [Bool.eq_false_iff]
    intro hs
    simp only [isSpace, Bool.or_eq_true, beq_iff_eq] at hs
    rcases hs with ((rfl | rfl) | rfl) | rfl <;> cases h
  have hquote : c ≠ '"' := by
    rintro rfl
    cases h
  simp only [start?, hspace, Bool.false_eq_true, if_false, hquote, h, if_true]

theorem scan_wordText {w s : List Char} {t : Token} (hw : ∀ c ∈ w, isWordChar c = true)
    (ht : wordToken? w = some t) (hne : w ≠ []) (hs : Delimited s) :
    scan .between (w ++ s) = (scan .between s).map (t :: ·) := by
  cases w with
  | nil => exact absurd rfl hne
  | cons c w =>
      have hc : step? .between c = some ([], .word [c]) :=
        isWordChar_start (hw c List.mem_cons_self)
      rw [List.cons_append, scan_cons_nil _ hc,
        scan_word fun d hd => hw d (List.mem_cons_of_mem c hd)]
      refine scan_word_end ?_ hs
      rw [List.reverse_append, List.reverse_reverse]
      exact ht

/-! Values. -/

/-- Between tokens a text gives some tokens, and the scan goes on behind it. -/
def Scans (w : List Char) (ts : List Token) (s : List Char) : Prop :=
  scan .between (w ++ s) = (scan .between s).map (ts ++ ·)

theorem Scans.append {w w' s : List Char} {ts ts' : List Token} (h : Scans w ts (w' ++ s))
    (h' : Scans w' ts' s) : Scans (w ++ w') (ts ++ ts') s := by
  rw [Scans] at h h' ⊢
  rw [List.append_assoc, h, h']
  cases scan .between s <;> simp

theorem scans_sign {c : Char} {t : Token} (s : List Char) (h : start? c = some ([t], .between)) :
    Scans [c] [t] s := by
  have hc : step? .between c = some ([t], .between) := h
  exact scan_cons s hc

theorem Scans.member (key : Text) {w s : List Char} {ts : List Token} (h : Scans w ts s) :
    Scans (stringText key ++ ':' :: w) (.string key :: .colon :: ts) s := by
  have hcolon : Scans (':' :: w) (.colon :: ts) s :=
    (scans_sign (c := ':') (t := .colon) (w ++ s) rfl).append h
  have hkey : Scans (stringText key) [.string key] (':' :: w ++ s) := scan_stringText key _
  exact hkey.append hcolon

theorem text_object (key : Text) (v : Json) (rest : List (Text × Json)) :
    text (.object ((key, v) :: rest)) =
      '\x7b' :: (stringText key ++ ':' :: (text v ++ membersText rest)) := by
  change '\x7b' :: stringText key ++ ':' :: text v ++ membersText rest = _
  rw [List.append_assoc]
  rfl

theorem membersText_cons (key : Text) (v : Json) (rest : List (Text × Json)) :
    membersText ((key, v) :: rest) =
      ',' :: (stringText key ++ ':' :: (text v ++ membersText rest)) := by
  change ',' :: stringText key ++ ':' :: text v ++ membersText rest = _
  rw [List.append_assoc]
  rfl

theorem delimited_cons {c : Char} (s : List Char) (h : isWordChar c = false) : Delimited (c :: s) := by
  intro d hd
  rw [← Option.some.inj hd]
  exact h

theorem delimited_itemsText (items : List Json) (s : List Char) :
    Delimited (itemsText items ++ s) := by
  cases items <;> exact delimited_cons _ rfl

theorem delimited_membersText (members : List (Text × Json)) (s : List Char) :
    Delimited (membersText members ++ s) := by
  rcases members with _ | ⟨⟨key, v⟩, rest⟩ <;> exact delimited_cons _ rfl

mutual

theorem scans_text : (v : Json) → Printable v → ∀ s, Delimited s → Scans (text v) (tokens v) s
  | .null, _, s, hs => scan_wordText (List.all_eq_true.1 (by decide)) rfl (by decide) hs
  | .bool true, _, s, hs => scan_wordText (List.all_eq_true.1 (by decide)) rfl (by decide) hs
  | .bool false, _, s, hs => scan_wordText (List.all_eq_true.1 (by decide)) rfl (by decide) hs
  | .number _, h, s, hs =>
      scan_wordText (Decimal.Numeral.isWordChar_text h) (Decimal.Numeral.wordToken?_text h)
        (Decimal.Numeral.text_ne_nil h) hs
  | .string t, _, s, _ => scan_stringText t s
  | .array [], _, s, _ =>
      (scans_sign (c := '[') (t := .openArray) _ rfl).append (scans_sign (c := ']') s rfl)
  | .array (v :: rest), h, s, hs => by
      have hv := scans_text v h.1 _ (delimited_itemsText rest s)
      have hrest := scans_itemsText rest h.2 s hs
      exact (scans_sign (c := '[') (t := .openArray) _ rfl).append (hv.append hrest)
  | .object [], _, s, _ =>
      (scans_sign (c := '\x7b') (t := .openObject) _ rfl).append (scans_sign (c := '\x7d') s rfl)
  | .object ((key, v) :: rest), h, s, hs => by
      have hv := scans_text v h.1 _ (delimited_membersText rest s)
      have hrest := scans_membersText rest h.2 s hs
      rw [text_object]
      exact (scans_sign (c := '\x7b') (t := .openObject) _ rfl).append
        ((hv.append hrest).member key)

theorem scans_itemsText : (items : List Json) → PrintableItems items → ∀ s, Delimited s →
    Scans (itemsText items) (itemsTokens items) s
  | [], _, s, _ => scans_sign s rfl
  | v :: rest, h, s, hs => by
      have hv := scans_text v h.1 _ (delimited_itemsText rest s)
      have hrest := scans_itemsText rest h.2 s hs
      exact (scans_sign (c := ',') (t := .comma) _ rfl).append (hv.append hrest)

theorem scans_membersText : (members : List (Text × Json)) → PrintableMembers members → ∀ s,
    Delimited s → Scans (membersText members) (membersTokens members) s
  | [], _, s, _ => scans_sign s rfl
  | (key, v) :: rest, h, s, hs => by
      have hv := scans_text v h.1 _ (delimited_membersText rest s)
      have hrest := scans_membersText rest h.2 s hs
      rw [membersText_cons]
      exact (scans_sign (c := ',') (t := .comma) _ rfl).append ((hv.append hrest).member key)

end

/-! The parser. -/

def parse (state : State) (ts : List Token) : Option State := ts.foldlM State.step? state

mutual

theorem parse_tokens : (v : Json) → ∀ mayClose stack ts,
    parse (.value mayClose stack) (tokens v ++ ts) = parse (.complete v stack) ts
  | .null, _, _, _ => rfl
  | .bool _, _, _, _ => rfl
  | .number _, _, _, _ => rfl
  | .string _, _, _, _ => rfl
  | .array [], _, _, _ => rfl
  | .array (v :: rest), mayClose, stack, ts => by
      have hopen : parse (.value mayClose stack) (tokens (.array (v :: rest)) ++ ts) =
          parse (.value true (.array [] :: stack)) (tokens v ++ itemsTokens rest ++ ts) := rfl
      rw [hopen, List.append_assoc, parse_tokens v, parse_itemsTokens rest]
      rfl
  | .object [], _, _, _ => rfl
  | .object ((key, v) :: rest), mayClose, stack, ts => by
      have hopen : parse (.value mayClose stack) (tokens (.object ((key, v) :: rest)) ++ ts) =
          parse (.value false (.object [] key :: stack)) (tokens v ++ membersTokens rest ++ ts) := rfl
      rw [hopen, List.append_assoc, parse_tokens v, parse_membersTokens rest]
      rfl

theorem parse_itemsTokens : (items : List Json) → ∀ v read stack ts,
    parse (.complete v (.array read :: stack)) (itemsTokens items ++ ts) =
      parse (.complete (.array (read.reverse ++ v :: items)) stack) ts
  | [], v, read, stack, ts => by
      rw [← List.reverse_cons]
      rfl
  | w :: rest, v, read, stack, ts => by
      have hcomma : parse (.complete v (.array read :: stack)) (itemsTokens (w :: rest) ++ ts) =
          parse (.value false (.array (v :: read) :: stack)) (tokens w ++ itemsTokens rest ++ ts) :=
        rfl
      rw [hcomma, List.append_assoc, parse_tokens w, parse_itemsTokens rest, List.reverse_cons,
        List.append_assoc]
      rfl

theorem parse_membersTokens : (members : List (Text × Json)) → ∀ key v read stack ts,
    parse (.complete v (.object read key :: stack)) (membersTokens members ++ ts) =
      parse (.complete (.object (read.reverse ++ (key, v) :: members)) stack) ts
  | [], key, v, read, stack, ts => by
      rw [← List.reverse_cons]
      rfl
  | (name, w) :: rest, key, v, read, stack, ts => by
      have hcomma : parse (.complete v (.object read key :: stack))
          (membersTokens ((name, w) :: rest) ++ ts) =
        parse (.value false (.object ((key, v) :: read) name :: stack))
          (tokens w ++ membersTokens rest ++ ts) := rfl
      rw [hcomma, List.append_assoc, parse_tokens w, parse_membersTokens rest, List.reverse_cons,
        List.append_assoc]
      rfl

end

theorem ofTokens?_tokens (v : Json) : ofTokens? (tokens v) = some v := by
  have h := parse_tokens v false [] []
  rw [List.append_nil] at h
  rw [ofTokens?, ← parse, h]
  rfl

/-- A value whose numbers are well-formed is read back from its bytes. -/
theorem ofBytes?_render {v : Json} (h : Printable v) : ofBytes? (utf8 v.render) = some v := by
  have hscan := scans_text v h [] (by intro c hc; cases hc)
  rw [Scans, List.append_nil] at hscan
  have hnil : scan .between [] = some [] := rfl
  rw [hnil, Option.map_some, List.append_nil] at hscan
  rw [ofBytes?, characters_utf8, render, String.toList_ofList, ← scan, hscan, Option.bind_some,
    ofTokens?_tokens]

end PlanFeedback.Json
