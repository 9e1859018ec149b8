import PlanFeedback.Proofs.Auxiliary
import PlanFeedback.Proofs.Identifier

/-!
Scan directives can be read back whatever signs the names hold. A directive ends where the quoting
of its name says so, and a line break in front of it is never one of a name.
-/
namespace PlanFeedback

namespace Plan

/-! What is left of a text behind an identifier. -/

theorem length_readQuoted {cs : List Char} {r : List Char × List Char}
    (h : readQuoted cs = some r) : r.2.length ≤ cs.length := by
  fun_induction readQuoted cs generalizing r with
  | case1 => cases h
  | case2 =>
      obtain rfl := Option.some.inj h
      exact Nat.zero_le _
  | case3 rest ih =>
      obtain ⟨r', hr', rfl⟩ := Option.map_eq_some_iff.1 h
      have := ih hr'
      simp only [List.length_cons]
      omega
  | case4 d rest hd =>
      obtain rfl := Option.some.inj h
      exact Nat.le_succ _
  | case5 c rest hc ih =>
      obtain ⟨r', hr', rfl⟩ := Option.map_eq_some_iff.1 h
      have := ih hr'
      exact Nat.le_succ_of_le this

theorem length_readIdentifier {cs : List Char} {r : String × List Char}
    (h : readIdentifier cs = some r) : r.2.length ≤ cs.length := by
  unfold readIdentifier at h
  split at h
  · cases h
  · split at h
    · obtain ⟨r', hr', rfl⟩ := Option.map_eq_some_iff.1 h
      exact Nat.le_succ_of_le (length_readQuoted hr')
    · obtain rfl := Option.some.inj h
      exact List.length_dropWhile_le _ _

end Plan

namespace Advice

open Plan (BadIndex Names RangeTable)

/-! Reading scan directives. -/

/-- A scan directive as it is read, with a mark if a line begins with it. -/
structure ScanEntry where
  startsLine : Bool
  keyword : String
  name : String
  deriving DecidableEq

/-- A directive without the break in front of it, and what follows: the keyword goes up to the
parenthesis, and the name as far as its quotes say. -/
def readDirective (startsLine : Bool) (text : List Char) : Option (ScanEntry × List Char) :=
  match Plan.readIdentifier (text.dropWhile (· != '(')).tail with
  | some (name, ')' :: ' ' :: rest) =>
    some (⟨startsLine, String.ofList (text.takeWhile (· != '(')), name⟩, rest)
  | _ => none

/-- The directive that comes next, and what follows it. -/
def readEntry : List Char → Option (ScanEntry × List Char)
  | [] => none
  | c :: cs => if c = '\n' then readDirective true cs else readDirective false (c :: cs)

theorem length_readDirective {startsLine : Bool} {text : List Char} {r : ScanEntry × List Char}
    (h : readDirective startsLine text = some r) : r.2.length < text.length := by
  unfold readDirective at h
  split at h
  · rename_i name rest hread
    have hafter := Plan.length_readIdentifier hread
    have hdrop := List.length_dropWhile_le (· != '(') text
    obtain rfl := Option.some.inj h
    simp only [List.length_tail, List.length_cons] at hafter
    change rest.length < text.length
    omega
  · cases h

theorem length_readEntry {text : List Char} {r : ScanEntry × List Char}
    (h : readEntry text = some r) : r.2.length < text.length := by
  unfold readEntry at h
  split at h
  · cases h
  · split at h
    · exact Nat.lt_succ_of_lt (length_readDirective h)
    · exact length_readDirective h

/-- All directives of a text, or nothing if it is not made of directives. -/
def readScans (text : List Char) : Option (List ScanEntry) :=
  match text with
  | [] => some []
  | c :: cs =>
    match h : readEntry (c :: cs) with
    | none => none
    | some (x, rest) =>
      have := length_readEntry h
      (readScans rest).map (x :: ·)
termination_by text.length
decreasing_by exact this

/-! Writing them. -/

namespace ScanEntry

def directive (x : ScanEntry) : String :=
  x.keyword ++ "(" ++ Plan.quoteIdentifier x.name ++ ") "

def text (x : ScanEntry) : String := (if x.startsLine then "\n" else "") ++ x.directive

def IsKnown (x : ScanEntry) : Prop := ∃ method : ScanMethod, x.keyword = method.keyword

/-- A keyword does not begin with a line break, nor does it hold the sign that ends it. -/
theorem IsKnown.keyword {x : ScanEntry} (hx : x.IsKnown) :
    (∃ c cs, x.keyword.toList = c :: cs ∧ c ≠ '\n') ∧ ∀ d ∈ x.keyword.toList, (d != '(') = true := by
  obtain ⟨method, hmethod⟩ := hx
  have hhead : method.keyword.toList.head?.any (· != '\n') = true := by
    cases method <;> decide +kernel
  have hall : method.keyword.toList.all (· != '(') = true := by cases method <;> decide +kernel
  rw [hmethod]
  refine ⟨?_, List.all_eq_true.1 hall⟩
  cases hkeyword : method.keyword.toList with
  | nil =>
      rw [hkeyword] at hhead
      cases hhead
  | cons c cs =>
      rw [hkeyword] at hhead
      exact ⟨c, cs, rfl, bne_iff_ne.1 hhead⟩

end ScanEntry

theorem readDirective_directive {x : ScanEntry} (hx : x.IsKnown) (rest : List Char) :
    readDirective x.startsLine (x.directive.toList ++ rest) = some (x, rest) := by
  have hkeyword := hx.keyword.2
  have hname : Plan.readIdentifier ((Plan.quoteIdentifier x.name).toList ++ ')' :: ' ' :: rest) =
      some (x.name, ')' :: ' ' :: rest) := by
    apply Plan.readIdentifier_quoteIdentifier
    intro d hd
    obtain rfl := Option.some.inj hd
    exact ⟨by decide, rfl⟩
  have htext : x.directive.toList ++ rest = x.keyword.toList ++
      '(' :: ((Plan.quoteIdentifier x.name).toList ++ ')' :: ' ' :: rest) := by
    simp only [ScanEntry.directive, String.toList_append, List.append_assoc]
    rfl
  rw [htext, readDirective, List.dropWhile_append_of_pos hkeyword,
    List.takeWhile_append_of_pos hkeyword]
  simp [hname]

theorem readEntry_text {x : ScanEntry} (hx : x.IsKnown) (rest : List Char) :
    readEntry (x.text.toList ++ rest) = some (x, rest) := by
  have hread := readDirective_directive hx rest
  rw [ScanEntry.text, String.toList_append, List.append_assoc]
  cases hstarts : x.startsLine with
  | true =>
      rw [hstarts] at hread
      exact hread
  | false =>
      obtain ⟨c, cs, hkeyword, hc⟩ := hx.keyword.1
      obtain ⟨ds, hds⟩ : ∃ ds, x.directive.toList ++ rest = c :: ds := by
        simp only [ScanEntry.directive, String.toList_append, hkeyword]
        exact ⟨_, rfl⟩
      rw [hstarts, hds] at hread
      rw [hds]
      exact (if_neg hc).trans hread

/-- Directives are read back one by one. -/
theorem readScans_text {entries : List ScanEntry} (h : ∀ x ∈ entries, x.IsKnown) :
    readScans (entries.flatMap fun x => x.text.toList) = some entries := by
  induction entries with
  | nil =>
      rw [List.flatMap_nil]
      unfold readScans
      rfl
  | cons x entries ih =>
      obtain ⟨hx, hrest⟩ := List.forall_mem_cons.1 h
      have hread := readEntry_text hx (entries.flatMap fun x => x.text.toList)
      rw [List.flatMap_cons]
      unfold readScans
      split
      · rename_i hnil
        rw [hnil] at hread
        cases hread
      · rename_i c cs hcons
        rw [hcons] at hread
        split
        · rename_i hnone
          rw [hread] at hnone
          cases hnone
        · rename_i y rest hsome
          rw [hread] at hsome
          obtain ⟨rfl, rfl⟩ := Prod.mk.inj (Option.some.inj hsome)
          rw [ih hrest]
          rfl

/-! The scans of a plan. -/

def display (names : Names) (s : ScanMethod × Nat) : Except BadIndex (String × String) :=
  (names.get s.2).map fun name => (s.1.keyword, name)

/-- The keyword and the name of an entry for a scan. -/
def Entry.display? (x : Entry) : Option (String × String) :=
  x.mark.scanKeyword?.map fun keyword => (keyword, x.names)

theorem mapM_display {names : Names} {nodes : List Plan} {entries : List Entry}
    (h : (nodes.filterMap Item.ofNode?).mapM (Item.entry names) = .ok entries) :
    (nodes.filterMap scanOf?).mapM (display names) = .ok (entries.filterMap Entry.display?) := by
  refine mapM_scans (fun method relation name hname => ?_) (fun _ _ _ _ => rfl) h
  exact ⟨(method.keyword, name), by rw [display, hname]; rfl, rfl⟩

/-- What directives for scans are read as, five on a line. -/
def readInFives (shown : List (String × String)) : List ScanEntry :=
  shown.mapIdx fun k x => ⟨decide (0 < k ∧ 5 ∣ k), x.1, x.2⟩

theorem toList_inFives (shown : List (String × String)) :
    (inFives (shown.map fun x => x.1 ++ "(" ++ Plan.quoteIdentifier x.2 ++ ") ")).toList =
      (readInFives shown).flatMap fun x => x.text.toList := by
  have hentries : (shown.map fun x => x.1 ++ "(" ++ Plan.quoteIdentifier x.2 ++ ") ").mapIdx
      (fun k entry => if 0 < k ∧ 5 ∣ k then "\n" ++ entry else entry) =
        (readInFives shown).map ScanEntry.text := by
    apply List.ext_getElem?
    intro k
    simp only [readInFives, List.getElem?_mapIdx, List.getElem?_map, Option.map_map]
    congr 1
    funext x
    by_cases hk : 0 < k ∧ 5 ∣ k
    · simp [ScanEntry.text, ScanEntry.directive, hk]
    · simp [ScanEntry.text, ScanEntry.directive, hk]
  rw [inFives, hentries, String.toList_join, List.flatMap_map]

theorem scans_eq (entries : List Entry) :
    entries.filterMap Entry.scan? = (entries.filterMap Entry.display?).map fun x =>
      x.1 ++ "(" ++ Plan.quoteIdentifier x.2 ++ ") " := by
  rw [List.map_filterMap]
  congr 1
  funext x
  rw [Entry.scan?, Entry.display?, Option.map_map]
  rfl

theorem isKnown_readInFives {entries : List Entry} {x : ScanEntry}
    (hx : x ∈ readInFives (entries.filterMap Entry.display?)) : x.IsKnown := by
  obtain ⟨k, hk, rfl⟩ := List.mem_mapIdx.1 hx
  obtain ⟨⟨mark, name⟩, -, hentry⟩ := List.mem_filterMap.1 (List.getElem_mem hk)
  cases mark with
  | scan method =>
      refine ⟨method, ?_⟩
      rw [← Option.some.inj hentry]
  | join kind estimate actual => cases hentry

/-- From the scan directives alone one reads the keywords and the names of the scans of the plan, in
order, and that the sixth begins a line, the eleventh, and so on. -/
theorem scans_readable {table : RangeTable} {p : Plan} {d : Directives}
    (h : directives table p = .ok d) :
    ∃ names shown, relationNames table p = .ok names ∧
      (p.effectiveRoot.spine.filterMap scanOf?).mapM (display names) = .ok shown ∧
      readScans d.scan.toList =
        some (shown.mapIdx fun k x => ⟨decide (0 < k ∧ 5 ∣ k), x.1, x.2⟩) ∧
      d.scan = inFives (shown.map fun x => x.1 ++ "(" ++ Plan.quoteIdentifier x.2 ++ ") ") := by
  obtain ⟨names, entries, hnames, hentries, hd, -⟩ := exists_entries h
  have htext : d.scan = inFives ((entries.filterMap Entry.display?).map fun x =>
      x.1 ++ "(" ++ Plan.quoteIdentifier x.2 ++ ") ") := by
    rw [hd.scan, scans_eq]
  refine ⟨names, entries.filterMap Entry.display?, hnames, mapM_display hentries, ?_, htext⟩
  rw [htext, toList_inFives]
  exact readScans_text fun x hx => isKnown_readInFives hx

def chained (first : Plan) (more : List Plan) : Plan :=
  more.foldl (fun outer inner => .join .hashJoin outer inner 5) first

def sixScans : Plan :=
  chained (.scan .seq 1 5) [.scan .cte 2 5, .scan .index 3 5, .scan .tid 7 5, .scan .indexOnly 4 5,
    .scan .bitmapHeap 5 5, .scan .function 6 5]

/-- Names that hold the signs of directives, a keyword, and no name at all. -/
def oddTable : RangeTable :=
  [.ofRelation "a\"b", .ofRelation ") SEQSCAN(x) ", .ofRelation "\nINDEXSCAN(", .ofRelation "",
    .ofRelation "select", .ofRelation "a b", .ofRelation "t$1"]

theorem scans_readable_odd :
    ∃ d, directives oddTable sixScans = .ok d ∧
      readScans d.scan.toList = some [⟨false, "SEQSCAN", "a\"b"⟩,
        ⟨false, "SEQSCAN", ") SEQSCAN(x) "⟩, ⟨false, "INDEXSCAN", "\nINDEXSCAN("⟩,
        ⟨false, "INDEXONLYSCAN", ""⟩, ⟨false, "BITMAPSCAN", "select"⟩, ⟨true, "SEQSCAN", "a b"⟩] := by
  have hok : (directives oddTable sixScans).isOk = true := by decide +kernel
  have hall : (relationNames oddTable sixScans >>= fun names =>
      (sixScans.effectiveRoot.spine.filterMap scanOf?).mapM (display names)).toOption =
        some [("SEQSCAN", "a\"b"), ("SEQSCAN", ") SEQSCAN(x) "), ("INDEXSCAN", "\nINDEXSCAN("),
          ("INDEXONLYSCAN", ""), ("BITMAPSCAN", "select"), ("SEQSCAN", "a b")] := by
    decide +kernel
  cases hd : directives oddTable sixScans with
  | error bad => rw [hd] at hok; cases hok
  | ok d =>
      obtain ⟨names, shown, hnames, hshown, hread, -⟩ := scans_readable hd
      rw [hnames] at hall
      change ((sixScans.effectiveRoot.spine.filterMap scanOf?).mapM (display names)).toOption = _
        at hall
      rw [hshown] at hall
      obtain rfl := Option.some.inj hall
      exact ⟨d, rfl, hread⟩

end Advice

end PlanFeedback
