import PlanFeedback.Advice.Directives
import PlanFeedback.Proofs.Shape
import PlanFeedback.Proofs.Spine

/-!
What directives are written from: an entry for each scan with a method and for each join on the
spine, in the order of the spine. The pass over a plan keeps to this, node by node.
-/
namespace PlanFeedback.Advice

open Plan (Names BadIndex RangeTable JoinKind)

/-- The rows of a loop as counted, or the estimate where the node has no counts or never ran. -/
def reckoned (q : Plan) : Float :=
  match q.counts? with
  | some c => if 0 < c.loops then c.rows / c.loops else q.estimate
  | none => q.estimate

theorem getD_actual? (q : Plan) : q.actual?.getD q.estimate = reckoned q := by
  unfold Plan.actual? reckoned
  cases q.counts? with
  | none => rfl
  | some c =>
      simp only
      split <;> rfl

/-- What a node brings to the directives, without the names of relations. -/
inductive Mark where
  | scan (method : ScanMethod)
  | join (kind : JoinKind) (estimate actual : Float)

namespace Mark

def ofNode? (q : Plan) : Option Mark :=
  match q.kind with
  | .scan kind _ => (ScanMethod.ofKind? kind).map .scan
  | .join kind => some (.join kind q.estimate (reckoned q))
  | _ => none

def scanKeyword? : Mark → Option String
  | scan method => some method.keyword
  | join .. => none

def joinKeyword? : Mark → Option String
  | scan _ => none
  | join kind .. => some (joinKeyword kind)

/-- The count of the row directive of a join whose rows are not what was estimated. -/
def rowCount? : Mark → Option String
  | scan _ => none
  | join _ estimate actual => if estimate != actual then some (Decimal.fixed 0 actual) else none

def rowDiff? : Mark → Option Float
  | scan _ => none
  | join _ estimate actual => some (actual - estimate).abs

end Mark

/-- What a node brings, with the relations that it speaks of. -/
structure Item where
  mark : Mark
  relations : List Nat

def Item.ofNode? (q : Plan) : Option Item :=
  match q.kind with
  | .scan kind relation => (ScanMethod.ofKind? kind).map fun method => ⟨.scan method, [relation]⟩
  | .join kind =>
    some ⟨.join kind q.estimate (reckoned q), (q.collectRelations .skipAuxiliary).toList⟩
  | _ => none

theorem Item.map_mark_ofNode? (q : Plan) : (Item.ofNode? q).map Item.mark = Mark.ofNode? q := by
  rw [Item.ofNode?, Mark.ofNode?]
  split
  · rw [Option.map_map]
    rfl
  · rfl
  · rfl

/-- What a node brings, with the names of the relations that it speaks of. -/
structure Entry where
  mark : Mark
  names : String

namespace Entry

def scan? (x : Entry) : Option String :=
  x.mark.scanKeyword?.map fun keyword => keyword ++ "(" ++ Plan.quoteIdentifier x.names ++ ") "

def join? (x : Entry) : Option String :=
  x.mark.joinKeyword?.map fun keyword => keyword ++ "(" ++ x.names ++ ") "

def rows? (x : Entry) : Option String :=
  x.mark.rowCount?.map fun count => "ROWS(" ++ x.names ++ " #" ++ count ++ ") "

def rowDiff? (x : Entry) : Option Float := x.mark.rowDiff?

end Entry

def Item.entry (names : Names) (x : Item) : Except BadIndex Entry := do
  return ⟨x.mark, " ".intercalate (← x.relations.mapM names.get)⟩

theorem Item.entry_toList (names : Names) (mark : Mark) (relations : Plan.IndexSet) :
    Item.entry names ⟨mark, relations.toList⟩ = (names.list relations).map (Entry.mk mark) := by
  rw [Item.entry, Names.list]
  cases relations.toList.mapM names.get <;> rfl

theorem Item.map_mark_entries {names : Names} {items : List Item} {entries : List Entry}
    (h : items.mapM (Item.entry names) = .ok entries) :
    entries.map Entry.mark = items.map Item.mark := by
  have hmark : ∀ {x : Item} {y : Entry}, x.entry names = .ok y → y.mark = x.mark := by
    intro x y hxy
    rw [Item.entry] at hxy
    obtain ⟨list, -, hxy⟩ := bind_eq_ok.1 hxy
    obtain rfl := Except.ok.inj hxy
    rfl
  have hentries := mapM_eq_ok.1 h
  induction hentries with
  | nil => rfl
  | cons hxy hrest ih => rw [List.map_cons, List.map_cons, hmark hxy, ih (mapM_eq_ok.2 hrest)]

/-- The entries one after the other, five on a line. -/
def inFives (entries : List String) : String :=
  String.join (entries.mapIdx fun k entry => if 0 < k ∧ 5 ∣ k then "\n" ++ entry else entry)

/-- The directives are those of the entries, the ones of a kind in the order of the entries. -/
structure Written (entries : List Entry) (d : Directives) : Prop where
  scan : d.scan = inFives (entries.filterMap Entry.scan?)
  join : d.join = "\n".intercalate (entries.filterMap Entry.join?)
  rows : d.rows = "\n".intercalate (entries.filterMap Entry.rows?)
  joinCount : d.joinCount = (entries.filterMap Entry.join?).length
  totalDiff : d.totalDiff = (entries.filterMap Entry.rowDiff?).foldl (· + ·) 0

/-! Lists of entries. -/

theorem filterMap_concat_some {α β : Type} {f : α → Option β} {x : α} {y : β} (xs : List α)
    (h : f x = some y) : (xs ++ [x]).filterMap f = xs.filterMap f ++ [y] := by
  rw [List.filterMap_append, List.filterMap_cons_some h, List.filterMap_nil]

theorem filterMap_concat_none {α β : Type} {f : α → Option β} {x : α} (xs : List α)
    (h : f x = none) : (xs ++ [x]).filterMap f = xs.filterMap f := by
  rw [List.filterMap_append, List.filterMap_cons_none h, List.filterMap_nil, List.append_nil]

theorem filterMap_cons_toList {α β : Type} (f : α → Option β) (a : α) (items : List α) :
    (a :: items).filterMap f = (f a).toList ++ items.filterMap f := by
  rw [List.filterMap_cons]
  cases f a <;> rfl

theorem inFives_concat (entries : List String) (entry : String) :
    inFives (entries ++ [entry]) =
      inFives entries ++ Draft.scanBreak entries.length ++ entry := by
  have hbreak : (if 0 < entries.length ∧ 5 ∣ entries.length then "\n" ++ entry else entry) =
      Draft.scanBreak entries.length ++ entry := by
    rw [Draft.scanBreak, scansPerLine]
    by_cases h : 0 < entries.length ∧ entries.length % 5 = 0
    · rw [if_pos h, if_pos ⟨h.1, Nat.dvd_of_mod_eq_zero h.2⟩]
    · rw [if_neg h, if_neg fun h' => h ⟨h'.1, Nat.mod_eq_zero_of_dvd h'.2⟩, String.empty_append]
  rw [inFives, List.mapIdx_concat, String.join_append, hbreak, inFives, String.append_assoc]
  simp [String.join_cons]

theorem lines_concat (entries : List String) (entry : String) :
    "\n".intercalate (entries ++ [entry]) =
      "\n".intercalate entries ++ Draft.lineBreak entries.length ++ entry := by
  cases entries with
  | nil => simp [Draft.lineBreak]
  | cons first rest =>
      rw [String.intercalate_append_of_ne_nil (List.cons_ne_nil _ _) (List.cons_ne_nil _ _),
        String.intercalate_singleton]
      rfl

/-! Drafts. -/

namespace Draft

theorem addNode_eq_ok {names : Names} {table : RangeTable} {q : Plan} {d d' : Draft}
    (h : d.addNode names table q = .ok d') :
    (∃ kind relation, q.kind = .scan kind relation ∧ d.addScan names kind relation = .ok d') ∨
      (∃ kind, q.kind = .join kind ∧ d.addJoin names q kind = .ok d') ∨
      (Item.ofNode? q = none ∧ d' = d) := by
  have hlookup : ∀ relation, (table.get relation).map (fun _ => d) = .ok d' → d' = d := by
    intro relation hget
    obtain ⟨entry, -, hd⟩ := map_eq_ok.1 hget
    exact hd.symm
  unfold addNode at h
  split at h
  · exact .inl ⟨_, _, ‹_›, h⟩
  · exact .inr (.inl ⟨_, ‹_›, h⟩)
  · rename_i relation hkind
    exact .inr (.inr ⟨by rw [Item.ofNode?, hkind], hlookup relation h⟩)
  · rename_i relation hkind
    exact .inr (.inr ⟨by rw [Item.ofNode?, hkind], hlookup relation h⟩)
  · rename_i hscan hjoin _ _
    refine .inr (.inr ⟨?_, (Except.ok.inj h).symm⟩)
    unfold Item.ofNode?
    split
    · exact absurd ‹_› (hscan _ _)
    · exact absurd ‹_› (hjoin _)
    · rfl

/-- What is taken in of a node is fixed by its kind, its rows and the relations below it. -/
theorem addNode_congr {p q : Plan} (hkind : p.kind = q.kind) (hestimate : p.estimate = q.estimate)
    (hactual : p.actual? = q.actual?)
    (hrelations : p.collectRelations .skipAuxiliary = q.collectRelations .skipAuxiliary)
    (names : Names) (table : RangeTable) (d : Draft) :
    d.addNode names table p = d.addNode names table q := by
  have hjoin : ∀ kind, d.addJoin names p kind = d.addJoin names q kind := by
    intro kind
    rw [Draft.addJoin, Draft.addJoin, hrelations, hactual, hestimate]
  unfold Draft.addNode
  rw [hkind]
  simp only [hjoin]

/-- A plan is taken in by taking in the nodes of its spine. -/
theorem addPlan_eq (names : Names) (table : RangeTable) (p : Plan) (d : Draft) :
    addPlan names table p d = p.spine.foldlM (fun d q => d.addNode names table q) d :=
  Plan.along_eq (fun d q => addNode d names table q) p d

/-- A draft is written from entries, and has counted those with a directive of each kind. -/
structure WrittenFrom (entries : List Entry) (d : Draft) : Prop where
  written : Written entries (d.finish "")
  scanCount : d.scanCount = (entries.filterMap Entry.scan?).length
  rowsCount : d.rowsCount = (entries.filterMap Entry.rows?).length

theorem writtenFrom_nil : WrittenFrom [] {} := ⟨⟨rfl, rfl, rfl, rfl, rfl⟩, rfl, rfl⟩

namespace WrittenFrom

variable {names : Names} {table : RangeTable} {entries : List Entry} {d d' : Draft} {q : Plan}

theorem scan (h : WrittenFrom entries d) (method : ScanMethod) (name : String) :
    WrittenFrom (entries ++ [⟨.scan method, name⟩]) { d with
      scan := d.scan ++ scanBreak d.scanCount ++ scanEntry method name
      scanCount := d.scanCount + 1 } := by
  obtain ⟨⟨hscan, hjoin, hrows, hcount, htotal⟩, hscans, hrowsCount⟩ := h
  have hentry : Entry.scan? ⟨.scan method, name⟩ = some (scanEntry method name) := rfl
  refine ⟨⟨?_, ?_, ?_, ?_, ?_⟩, ?_, ?_⟩
  · rw [filterMap_concat_some entries hentry, inFives_concat, ← hscan, ← hscans]
    rfl
  · rwa [filterMap_concat_none entries rfl]
  · rwa [filterMap_concat_none entries rfl]
  · rwa [filterMap_concat_none entries rfl]
  · rwa [filterMap_concat_none entries rfl]
  · rw [filterMap_concat_some entries hentry, List.length_append, ← hscans]
    rfl
  · rwa [filterMap_concat_none entries rfl]

theorem join (h : WrittenFrom entries d) (kind : JoinKind) (relations : String)
    (estimate actual : Float) :
    WrittenFrom (entries ++ [⟨.join kind estimate actual, relations⟩]) (addRows { d with
      join := d.join ++ lineBreak d.joinCount ++ joinEntry kind relations
      joinCount := d.joinCount + 1
      totalDiff := d.totalDiff + (actual - estimate).abs } relations estimate actual) := by
  obtain ⟨⟨hscan, hjoin, hrows, hcount, htotal⟩, hscans, hrowsCount⟩ := h
  have hentry : Entry.join? ⟨.join kind estimate actual, relations⟩ =
    some (joinEntry kind relations) := rfl
  have hjoins : d.join ++ lineBreak d.joinCount ++ joinEntry kind relations =
      "\n".intercalate ((entries ++ [Entry.mk (.join kind estimate actual) relations]).filterMap
        Entry.join?) := by
    rw [filterMap_concat_some entries hentry, lines_concat, ← hjoin, ← hcount]
    rfl
  have hcounts : d.joinCount + 1 =
      ((entries ++ [Entry.mk (.join kind estimate actual) relations]).filterMap
        Entry.join?).length := by
    rw [filterMap_concat_some entries hentry, List.length_append, ← hcount]
    rfl
  have htotals : d.totalDiff + (actual - estimate).abs =
      ((entries ++ [Entry.mk (.join kind estimate actual) relations]).filterMap
        Entry.rowDiff?).foldl (· + ·) 0 := by
    have hdiff : Entry.rowDiff? ⟨.join kind estimate actual, relations⟩ =
      some (actual - estimate).abs := rfl
    rw [filterMap_concat_some entries hdiff, List.foldl_append, ← htotal]
    rfl
  rw [addRows]
  cases hne : estimate != actual with
  | false =>
      have hnone : Entry.rows? ⟨.join kind estimate actual, relations⟩ = none := by
        simp [Entry.rows?, Mark.rowCount?, hne]
      refine ⟨⟨?_, hjoins, ?_, hcounts, htotals⟩, ?_, ?_⟩
      · rwa [filterMap_concat_none entries rfl]
      · rwa [filterMap_concat_none entries hnone]
      · rwa [filterMap_concat_none entries rfl]
      · rwa [filterMap_concat_none entries hnone]
  | true =>
      have hsome : Entry.rows? ⟨.join kind estimate actual, relations⟩ =
          some (rowsEntry relations actual) := by
        simp [Entry.rows?, Mark.rowCount?, hne, rowsEntry]
      refine ⟨⟨?_, hjoins, ?_, hcounts, htotals⟩, ?_, ?_⟩
      · rwa [filterMap_concat_none entries rfl]
      · rw [filterMap_concat_some entries hsome, lines_concat, ← hrows, ← hrowsCount]
        rfl
      · rwa [filterMap_concat_none entries rfl]
      · rw [filterMap_concat_some entries hsome, List.length_append, ← hrowsCount]
        rfl

/-- A node is taken in with the entry of its item, if it has one. -/
theorem addNode (h : WrittenFrom entries d) (hadd : d.addNode names table q = .ok d') :
    ∃ more : List Entry, (Item.ofNode? q).toList.mapM (Item.entry names) = .ok more ∧
      WrittenFrom (entries ++ more) d' := by
  rcases addNode_eq_ok hadd with ⟨kind, relation, hkind, hscan⟩ | ⟨kind, hkind, hjoin⟩ |
    ⟨hnone, rfl⟩
  · rw [Draft.addScan] at hscan
    rw [Item.ofNode?, hkind]
    obtain ⟨name, hname, hscan⟩ := bind_eq_ok.1 hscan
    cases hmethod : ScanMethod.ofKind? kind with
    | none =>
        rw [hmethod] at hscan
        obtain rfl := Except.ok.inj hscan
        exact ⟨[], by simp [hmethod, Pure.pure, Except.pure], by rwa [List.append_nil]⟩
    | some method =>
        rw [hmethod] at hscan
        obtain rfl := Except.ok.inj hscan
        have hentry : Item.entry names ⟨.scan method, [relation]⟩ = .ok ⟨.scan method, name⟩ := by
          rw [Item.entry, List.mapM_cons, hname]
          rfl
        refine ⟨[⟨.scan method, name⟩], ?_, h.scan method name⟩
        simp only [hmethod, Option.map_some, Option.toList_some, List.mapM_cons, hentry]
        rfl
  · rw [Draft.addJoin] at hjoin
    rw [Item.ofNode?, hkind]
    obtain ⟨list, hlist, hjoin⟩ := bind_eq_ok.1 hjoin
    rw [getD_actual?] at hjoin
    obtain rfl := Except.ok.inj hjoin
    have hentry : Item.entry names ⟨.join kind q.estimate (reckoned q),
        (q.collectRelations .skipAuxiliary).toList⟩ =
          .ok ⟨.join kind q.estimate (reckoned q), list⟩ := by
      rw [Item.entry_toList, hlist]
      rfl
    refine ⟨[⟨.join kind q.estimate (reckoned q), list⟩], ?_, h.join kind list _ _⟩
    simp only [Option.toList_some, List.mapM_cons, hentry]
    rfl
  · exact ⟨[], by rw [hnone]; rfl, by rwa [List.append_nil]⟩

theorem foldlM_addNode {nodes : List Plan} (h : WrittenFrom entries d)
    (hadd : nodes.foldlM (fun d q => d.addNode names table q) d = .ok d') :
    ∃ more : List Entry, (nodes.filterMap Item.ofNode?).mapM (Item.entry names) = .ok more ∧
      WrittenFrom (entries ++ more) d' := by
  induction nodes generalizing entries d with
  | nil =>
      obtain rfl := Except.ok.inj hadd
      exact ⟨[], rfl, by rwa [List.append_nil]⟩
  | cons q nodes ih =>
      rw [List.foldlM_cons] at hadd
      obtain ⟨next, hq, hadd⟩ := bind_eq_ok.1 hadd
      obtain ⟨first, hfirst, hnext⟩ := h.addNode hq
      obtain ⟨rest, hrest, hlast⟩ := ih hnext hadd
      refine ⟨first ++ rest, ?_, by rwa [← List.append_assoc]⟩
      rw [filterMap_cons_toList]
      exact mapM_append_eq_ok.2 ⟨first, rest, hfirst, hrest, rfl⟩

end WrittenFrom

end Draft

theorem directives_eq_ok {table : RangeTable} {p : Plan} {d : Directives}
    (h : directives table p = .ok d) :
    ∃ names draft order, relationNames table p = .ok names ∧
      p.effectiveRoot.spine.foldlM (fun d q => d.addNode names table q) ({} : Draft) = .ok draft ∧
      leading names p.effectiveRoot = .ok order ∧ d = draft.finish order := by
  rw [directives] at h
  obtain ⟨names, hnames, h⟩ := bind_eq_ok.1 h
  rw [directivesWith, Draft.addPlan_eq] at h
  obtain ⟨draft, hdraft, h⟩ := bind_eq_ok.1 h
  obtain ⟨order, horder, h⟩ := bind_eq_ok.1 h
  exact ⟨names, draft, order, hnames, hdraft, horder, (Except.ok.inj h).symm⟩

/-- The directives are written from the items of the spine. -/
theorem exists_entries {table : RangeTable} {p : Plan} {d : Directives}
    (h : directives table p = .ok d) :
    ∃ names entries, relationNames table p = .ok names ∧
      (p.effectiveRoot.spine.filterMap Item.ofNode?).mapM (Item.entry names) = .ok entries ∧
      Written entries d ∧ leading names p.effectiveRoot = .ok d.leading := by
  obtain ⟨names, draft, order, hnames, hdraft, horder, rfl⟩ := directives_eq_ok h
  obtain ⟨entries, hentries, ⟨hscan, hjoin, hrows, hcount, htotal⟩, -, -⟩ :=
    Draft.writtenFrom_nil.foldlM_addNode hdraft
  exact ⟨names, entries, hnames, hentries, ⟨hscan, hjoin, hrows, hcount, htotal⟩, horder⟩

end PlanFeedback.Advice
