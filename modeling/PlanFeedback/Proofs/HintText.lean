import PlanFeedback.Proofs.Directives
import PlanFeedback.Proofs.Indexes
import PlanFeedback.Proofs.Numeral
import PlanFeedback.Store.Record

/-!
Active row hints can be read back. One reader finds in the merged text the entries of every run,
each once and in their order, whatever stands between them.
-/
namespace PlanFeedback.Advice

open Plan (BadIndex Names RangeTable)
open Store (mergeRowHints)

/-- What an entry of the row hints says: the relations of a join and its rows. -/
structure RowCount where
  names : List String
  count : String
  deriving DecidableEq, Repr

/-! The reader. -/

/-- Where the reader stands: between entries, among the names of one with a word begun, or in its
count. -/
inductive Reading where
  | between
  | names (read : List String) (word : List Char)
  | count (names : List String) (digits : List Char)

/-- The words read when a word ends that may be empty. -/
def endWord (read : List String) (word : List Char) : List String :=
  if word = [] then read else read ++ [String.ofList word]

/-- The entries that are completed in the rest of a text. -/
def readFrom : Reading → List Char → List RowCount
  | _, [] => []
  | .between, c :: rest => if c = '(' then readFrom (.names [] []) rest else readFrom .between rest
  | .names read word, c :: rest =>
    if c = '#' then readFrom (.count (endWord read word) []) rest
    else if c = ' ' then readFrom (.names (endWord read word) []) rest
    else readFrom (.names read (word ++ [c])) rest
  | .count names digits, c :: rest =>
    if c = ')' then ⟨names, String.ofList digits⟩ :: readFrom .between rest
    else readFrom (.count names (digits ++ [c])) rest

def readHints (text : String) : List RowCount := readFrom .between text.toList

/-- The name is not empty and has no mark of the reader and no break in it. -/
def Readable (name : String) : Prop :=
  name.toList ≠ [] ∧ ∀ c ∈ name.toList, c ∉ [' ', '\n', '(', ')', '#']

instance (name : String) : Decidable (Readable name) :=
  @instDecidableAnd _ _ inferInstance (List.decidableBAll _ name.toList)

theorem readFrom_between {lead : List Char} (hlead : '(' ∉ lead) (rest : List Char) :
    readFrom .between (lead ++ rest) = readFrom .between rest := by
  induction lead with
  | nil => rfl
  | cons c lead ih =>
      obtain ⟨hc, hlead⟩ := List.ne_and_not_mem_of_not_mem_cons hlead
      rw [List.cons_append, readFrom, if_neg (Ne.symm hc), ih hlead]

theorem readFrom_count (names : List String) {digits : List Char} (hdigits : ')' ∉ digits)
    (rest : List Char) : ∀ read, readFrom (.count names read) (digits ++ ')' :: rest) =
      ⟨names, String.ofList (read ++ digits)⟩ :: readFrom .between rest := by
  induction digits with
  | nil =>
      intro read
      rw [List.nil_append, readFrom, if_pos rfl, List.append_nil]
  | cons c digits ih =>
      intro read
      obtain ⟨hc, hdigits⟩ := List.ne_and_not_mem_of_not_mem_cons hdigits
      rw [List.cons_append, readFrom, if_neg (Ne.symm hc), ih hdigits, List.append_assoc]
      rfl

theorem readFrom_word (read : List String) {name : List Char} (hspace : ' ' ∉ name)
    (hmark : '#' ∉ name) (rest : List Char) : ∀ word,
      readFrom (.names read word) (name ++ rest) = readFrom (.names read (word ++ name)) rest := by
  induction name with
  | nil =>
      intro word
      rw [List.nil_append, List.append_nil]
  | cons c name ih =>
      intro word
      obtain ⟨hs, hspace⟩ := List.ne_and_not_mem_of_not_mem_cons hspace
      obtain ⟨hm, hmark⟩ := List.ne_and_not_mem_of_not_mem_cons hmark
      rw [List.cons_append, readFrom, if_neg (Ne.symm hm), if_neg (Ne.symm hs), ih hspace hmark,
        List.append_assoc]
      rfl

theorem readFrom_name (read : List String) {name : String} (h : Readable name) (rest : List Char) :
    readFrom (.names read []) (name.toList ++ ' ' :: rest) =
      readFrom (.names (read ++ [name]) []) rest := by
  have hspace : ' ' ∉ name.toList := fun hmem => h.2 _ hmem (by decide)
  have hmark : '#' ∉ name.toList := fun hmem => h.2 _ hmem (by decide)
  rw [readFrom_word read hspace hmark, List.nil_append, readFrom, if_neg (by decide), if_pos rfl,
    endWord, if_neg h.1, String.ofList_toList]

/-- Names with spaces between and a space behind them are read one by one; that there are none is
read off the space. -/
theorem readFrom_names {names : List String} (h : ∀ name ∈ names, Readable name)
    (rest : List Char) : ∀ read,
      readFrom (.names read []) ((" ".intercalate names).toList ++ ' ' :: '#' :: rest) =
        readFrom (.count (read ++ names) []) rest := by
  have hend : ∀ read, readFrom (.names read []) ('#' :: rest) = readFrom (.count read []) rest := by
    intro read
    rw [readFrom, if_pos rfl, endWord, if_pos rfl]
  induction names with
  | nil =>
      intro read
      rw [String.intercalate_nil, List.append_nil]
      exact hend read
  | cons name names ih =>
      intro read
      obtain ⟨hname, hnames⟩ := List.forall_mem_cons.1 h
      cases names with
      | nil => rw [String.intercalate_singleton, readFrom_name read hname, hend]
      | cons next names =>
          have hcut : (" ".intercalate (name :: next :: names)).toList =
              name.toList ++ ' ' :: (" ".intercalate (next :: names)).toList := by
            rw [String.intercalate_cons_cons, String.toList_append, String.toList_append,
              List.append_assoc]
            rfl
          rw [hcut, List.append_assoc, List.cons_append, readFrom_name read hname, ih hnames,
            List.append_assoc]
          rfl

/-! Texts that are read as some entries. -/

/-- The reader finds the entries in the text, and then goes on to whatever follows. -/
def Spells (text : String) (entries : List RowCount) : Prop :=
  ∀ rest, readFrom .between (text.toList ++ rest) = entries ++ readFrom .between rest

namespace Spells

variable {text text' : String} {entries entries' : List RowCount}

theorem empty : Spells "" [] := fun _ => rfl

theorem append (h : Spells text entries) (h' : Spells text' entries') :
    Spells (text ++ text') (entries ++ entries') := by
  intro rest
  rw [String.toList_append, List.append_assoc, h, h', List.append_assoc]

theorem skip (h : '(' ∉ text.toList) : Spells text [] := fun rest => readFrom_between h rest

theorem entry {names : List String} (hnames : ∀ name ∈ names, Readable name) {rows : Float}
    (hrows : ')' ∉ (Decimal.fixed 0 rows).toList) :
    Spells (Draft.rowsEntry (" ".intercalate names) rows) [⟨names, Decimal.fixed 0 rows⟩] := by
  intro rest
  have htext : (Draft.rowsEntry (" ".intercalate names) rows).toList ++ rest =
      "ROWS".toList ++ '(' :: ((" ".intercalate names).toList ++
        ' ' :: '#' :: ((Decimal.fixed 0 rows).toList ++ ')' :: (" ".toList ++ rest))) := by
    simp [Draft.rowsEntry, String.toList_append]
  rw [htext, readFrom_between (by decide), readFrom, if_pos rfl, readFrom_names hnames,
    List.nil_append, readFrom_count names hrows, List.nil_append, readFrom_between (by decide),
    String.ofList_toList]
  rfl

theorem eq_nil (h : Spells "" entries) : entries = [] := by
  have hread := h []
  rwa [String.toList_empty, List.nil_append, readFrom, List.append_nil, eq_comm] at hread

/-- Merged hints are read as the entries of both, also where one of them is empty. -/
theorem merge (h : Spells text entries) (h' : Spells text' entries') :
    Spells (mergeRowHints text text') (entries ++ entries') := by
  rw [mergeRowHints]
  split
  · rename_i hempty
    subst hempty
    rw [h.eq_nil, List.nil_append]
    exact h'
  split
  · rename_i hempty
    subst hempty
    rw [h'.eq_nil, List.append_nil]
    exact h
  · have hspace : Spells " " [] := skip (by decide)
    rw [← List.append_nil entries]
    exact (h.append hspace).append h'

theorem readHints (h : Spells text entries) : readHints text = entries := by
  have hread := h []
  rwa [List.append_nil, readFrom, List.append_nil] at hread

end Spells

/-- A row count has no parenthesis in it, also where it is no number. -/
theorem fixed_not_mem (rows : Float) : ')' ∉ (Decimal.fixed 0 rows).toList := by
  rw [Decimal.fixed]
  split
  · decide
  · rename_i negative _
    cases negative <;> decide
  · rename_i negative b _
    intro hmem
    rw [String.toList_ofList] at hmem
    simp only [Decimal.Numeral.text, Decimal.fixedNumeral, if_true, List.isEmpty_nil,
      List.append_nil, List.mem_append] at hmem
    rcases hmem with hsign | hdigit
    · split at hsign
      · exact absurd (List.mem_singleton.1 hsign) (by decide)
      · cases hsign
    · exact absurd (Decimal.isDigit_digitChars hdigit) (by decide)

/-! The entries of a run. -/

def isMissed (q : Plan) : Bool := (joinOf? q).isSome && q.estimate != reckoned q

def rowCount (names : Names) (q : Plan) : Except BadIndex RowCount := do
  return ⟨← (q.collectRelations .skipAuxiliary).toList.mapM names.get, Decimal.fixed 0 (reckoned q)⟩

/-- What is to be said of some nodes: the row counts of the joins that were missed. -/
def rowCounts (names : Names) (nodes : List Plan) : Except BadIndex (List RowCount) :=
  (nodes.filter isMissed).mapM (rowCount names)

theorem rowCounts_append {names : Names} {nodes nodes' : List Plan} {counts counts' : List RowCount}
    (h : rowCounts names nodes = .ok counts) (h' : rowCounts names nodes' = .ok counts') :
    rowCounts names (nodes ++ nodes') = .ok (counts ++ counts') := by
  rw [rowCounts] at h h' ⊢
  rw [List.filter_append, List.mapM_append, h, h']
  rfl

theorem rowCounts_skip {names : Names} {q : Plan} (h : isMissed q = false) :
    rowCounts names [q] = .ok [] := by
  rw [rowCounts, List.filter_singleton, h]
  rfl

def ReadableBelow (names : Names) (q : Plan) : Prop :=
  ∀ relation ∈ q.collectRelations .skipAuxiliary, ∀ name, names.get relation = .ok name →
    Readable name

theorem mem_of_mapM {α β ε : Type} {f : α → Except ε β} {items : List α} {values : List β}
    (h : items.mapM f = .ok values) {b : β} (hb : b ∈ values) : ∃ a ∈ items, f a = .ok b := by
  rw [mapM_eq_ok] at h
  induction h with
  | nil => cases hb
  | cons ha _ ih =>
      rcases List.mem_cons.1 hb with rfl | hb
      · exact ⟨_, List.mem_cons_self, ha⟩
      · obtain ⟨a, hmem, ha⟩ := ih hb
        exact ⟨a, List.mem_cons_of_mem _ hmem, ha⟩

theorem Spells.lines {texts : List String} {counts : List RowCount}
    (h : List.Forall₂ (fun text count => Spells text [count]) texts counts) :
    Spells ("\n".intercalate texts) counts := by
  have hbreak : Spells "\n" [] := .skip (by decide)
  induction h with
  | nil => exact .empty
  | @cons text count texts counts htext hrest ih =>
      cases hrest with
      | nil =>
          rw [String.intercalate_singleton]
          exact htext
      | cons =>
          rw [String.intercalate_cons_cons]
          exact (htext.append hbreak).append ih

/-- A node has a row count exactly if its entry has a row directive, and then this spells it. -/
theorem spells_entry {names : Names} {q : Plan} {values : List Entry}
    (h : (Item.ofNode? q).toList.mapM (Item.entry names) = .ok values)
    (hread : ReadableBelow names q) :
    ∃ counts, rowCounts names [q] = .ok counts ∧
      List.Forall₂ (fun text count => Spells text [count]) (values.filterMap Entry.rows?) counts := by
  rcases Item.entry_cases h with ⟨method, relation, name, -, hjoin, -, rfl⟩ |
    ⟨kind, text, -, hjoin, htext, rfl⟩ | ⟨-, hjoin, rfl⟩
  · exact ⟨[], rowCounts_skip (by rw [isMissed, hjoin]; rfl), .nil⟩
  · have hmissed : isMissed q = (q.estimate != reckoned q) := by
      rw [isMissed, hjoin, Option.isSome_some, Bool.true_and]
    cases hne : q.estimate != reckoned q with
    | false =>
        have hrows : (⟨.join kind q.estimate (reckoned q), text⟩ : Entry).rows? = none := by
          simp [Entry.rows?, Mark.rowCount?, hne]
        refine ⟨[], rowCounts_skip (by rw [hmissed, hne]), ?_⟩
        rw [List.filterMap_cons_none hrows]
        exact .nil
    | true =>
        rw [below, Names.list] at htext
        obtain ⟨list, hlist, htext⟩ := bind_eq_ok.1 htext
        obtain rfl := Except.ok.inj htext
        have hnames : ∀ name ∈ list, Readable name := by
          intro name hname
          obtain ⟨relation, hrelation, hget⟩ := mem_of_mapM hlist hname
          exact hread relation hrelation name hget
        have hrows : (⟨.join kind q.estimate (reckoned q), " ".intercalate list⟩ : Entry).rows? =
            some (Draft.rowsEntry (" ".intercalate list) (reckoned q)) := by
          simp [Entry.rows?, Mark.rowCount?, hne, Draft.rowsEntry]
        refine ⟨[⟨list, Decimal.fixed 0 (reckoned q)⟩], ?_, ?_⟩
        · rw [rowCounts, List.filter_singleton, hmissed, hne, cond_true, List.mapM_cons, rowCount,
            hlist]
          rfl
        · rw [List.filterMap_cons_some hrows]
          exact .cons (.entry hnames (fixed_not_mem (reckoned q))) .nil
  · exact ⟨[], rowCounts_skip (by rw [isMissed, hjoin]; rfl), .nil⟩

theorem spells_entries {names : Names} {nodes : List Plan} {entries : List Entry}
    (h : (nodes.filterMap Item.ofNode?).mapM (Item.entry names) = .ok entries)
    (hread : ∀ q ∈ nodes, ReadableBelow names q) :
    ∃ counts, rowCounts names nodes = .ok counts ∧
      List.Forall₂ (fun text count => Spells text [count]) (entries.filterMap Entry.rows?)
        counts := by
  induction nodes generalizing entries with
  | nil =>
      obtain rfl := Except.ok.inj h
      exact ⟨[], rfl, .nil⟩
  | cons q nodes ih =>
      obtain ⟨hq, hnodes⟩ := List.forall_mem_cons.1 hread
      rw [filterMap_cons_toList] at h
      obtain ⟨first, rest, hfirst, hrest, rfl⟩ := mapM_append_eq_ok.1 h
      obtain ⟨count, hcount, hspells⟩ := spells_entry hfirst hq
      obtain ⟨counts, hcounts, hall⟩ := ih hrest hnodes
      refine ⟨count ++ counts, rowCounts_append hcount hcounts, ?_⟩
      rw [List.filterMap_append]
      exact List.rel_append hspells hall

/-! Runs. -/

structure Run where
  table : RangeTable
  plan : Plan

namespace Run

def rows (run : Run) : Except BadIndex String :=
  (directives run.table run.plan).map (·.rows)

def counts (run : Run) : Except BadIndex (List RowCount) := do
  rowCounts (← relationNames run.table run.plan) run.plan.effectiveRoot.spine

/-- The names that are given to the relations of the plan are readable. -/
def Legible (run : Run) : Prop :=
  ∀ names, relationNames run.table run.plan = .ok names →
    ∀ relation ∈ run.plan.collectRelations .all, ∀ name, names.get relation = .ok name →
      Readable name

theorem legible_of_names {run : Run} (h : ∀ names, relationNames run.table run.plan = .ok names →
    ∀ name ∈ names.toList, Readable name) : run.Legible := by
  intro names hnames relation _ name hget
  exact h names hnames name (Names.mem_of_get hget)

theorem spells {run : Run} {text : String} (hlegible : run.Legible) (hrows : run.rows = .ok text) :
    ∃ counts, run.counts = .ok counts ∧ Spells text counts := by
  rw [rows] at hrows
  obtain ⟨d, hd, rfl⟩ := map_eq_ok.1 hrows
  obtain ⟨names, entries, hnames, hentries, hwritten, -⟩ := exists_entries hd
  have hread : ∀ q ∈ run.plan.effectiveRoot.spine, ReadableBelow names q := by
    intro q hq relation hrelation
    apply hlegible names hnames
    rw [Plan.mem_collectRelations_all]
    apply Plan.mentions_of_effectiveRoot
    exact Plan.mentions_of_spine hq (Plan.mentions_of_mem hrelation)
  obtain ⟨counts, hcounts, hspells⟩ := spells_entries hentries hread
  refine ⟨counts, ?_, ?_⟩
  · rw [Run.counts, hnames]
    exact hcounts
  · rw [hwritten.rows]
    exact .lines hspells

end Run

theorem foldl_merge_spells {runs : List Run} {texts : List String}
    (hlegible : ∀ run ∈ runs, run.Legible) (htexts : runs.mapM Run.rows = .ok texts) :
    ∀ {prior : String} {before : List RowCount}, Spells prior before →
      ∃ counts, runs.mapM Run.counts = .ok counts ∧
        Spells (texts.foldl mergeRowHints prior) (before ++ counts.flatten) := by
  rw [mapM_eq_ok] at htexts
  induction htexts with
  | nil =>
      intro prior before hprior
      refine ⟨[], rfl, ?_⟩
      rw [List.flatten_nil, List.append_nil]
      exact hprior
  | cons hrows _ ih =>
      intro prior before hprior
      obtain ⟨hrun, hruns⟩ := List.forall_mem_cons.1 hlegible
      obtain ⟨first, hfirst, hspells⟩ := Run.spells hrun hrows
      obtain ⟨others, hothers, hall⟩ := ih hruns (hprior.merge hspells)
      refine ⟨first :: others, ?_, ?_⟩
      · rw [List.mapM_cons, hfirst, hothers]
        rfl
      · rwa [List.flatten_cons, ← List.append_assoc]

/-- What the row hints of any runs are merged into is read as the row counts of their missed joins,
run by run and in the order of each tree. -/
theorem readHints_merged {runs : List Run} {texts : List String}
    (hlegible : ∀ run ∈ runs, run.Legible) (htexts : runs.mapM Run.rows = .ok texts) :
    ∃ counts, runs.mapM Run.counts = .ok counts ∧
      readHints (texts.foldl mergeRowHints "") = counts.flatten := by
  obtain ⟨counts, hcounts, hspells⟩ := foldl_merge_spells hlegible htexts Spells.empty
  exact ⟨counts, hcounts, hspells.readHints⟩

example : readHints "ROWS(a b #2)  ROWS(a #inf) \nROWS( #-0) " =
    [⟨["a", "b"], "2"⟩, ⟨["a"], "inf"⟩, ⟨[], "-0"⟩] := by decide

/-- A run with one missed join, one with none, and one with two of which the inner reads no
relation. -/
def hintedRuns : List Run :=
  let result : Plan := { kind := .other "Result", estimate := 1 }
  [⟨gatheredTable, gathered⟩, ⟨[.ofRelation "a"], .scan .seq 1 3⟩,
    ⟨[.ofRelation "a"], (Plan.join .nestLoop ((Plan.join .hashJoin result result 5).withActual 7)
      (Plan.scan .seq 1 3) 9).withActual 4⟩]

theorem readHints_merged_hinted :
    hintedRuns.mapM Run.rows = .ok ["ROWS(a Orders o #2) ", "", "ROWS(a #4) \nROWS( #7) "] ∧
      ∃ counts, hintedRuns.mapM Run.counts = .ok counts ∧
        readHints (["ROWS(a Orders o #2) ", "", "ROWS(a #4) \nROWS( #7) "].foldl
          mergeRowHints "") = counts.flatten := by
  have hall : (hintedRuns.all fun run => (relationNames run.table run.plan).toOption.all
      fun names => names.toList.all fun name => decide (Readable name)) = true := by
    decide +kernel
  have hlegible : ∀ run ∈ hintedRuns, run.Legible := by
    intro run hrun
    apply Run.legible_of_names
    intro names hnames
    have hrun := List.all_eq_true.1 hall run hrun
    rw [hnames] at hrun
    simpa [Except.toOption] using hrun
  have htexts : hintedRuns.mapM Run.rows =
      .ok ["ROWS(a Orders o #2) ", "", "ROWS(a #4) \nROWS( #7) "] := by decide +kernel
  exact ⟨htexts, readHints_merged hlegible htexts⟩

end PlanFeedback.Advice
