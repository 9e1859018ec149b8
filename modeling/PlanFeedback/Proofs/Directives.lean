import Mathlib
import PlanFeedback.Proofs.Entries

/-!
What the directives of a plan say: an entry for each join and each scan with a method on the spine,
in the order of the spine, and the sum of the row errors of the joins.
-/
namespace PlanFeedback.Advice

open Plan (Names BadIndex RangeTable JoinKind)

def joinOf? (q : Plan) : Option (Plan × JoinKind) :=
  match q.kind with
  | .join method => some (q, method)
  | _ => none

/-- The method and the relation of a node that is a scan with a method. -/
def scanOf? (q : Plan) : Option (ScanMethod × Nat) :=
  match q.kind with
  | .scan kind relation => (ScanMethod.ofKind? kind).map fun method => (method, relation)
  | _ => none

/-- The rows were counted and are not what was estimated. -/
def misestimated (q : Plan) : Bool :=
  match q.counts? with
  | some c => 0 < c.loops && q.estimate != c.rows / c.loops
  | none => false

/-- The joins among some joins whose rows are misestimated. -/
def misses (joined : List (Plan × JoinKind)) : List (Plan × JoinKind) :=
  joined.filter fun j => misestimated j.1

/-- The names of the relations below a node, auxiliary plans left out. -/
def below (names : Names) (q : Plan) : Except BadIndex String :=
  names.list (q.collectRelations .skipAuxiliary)

def joinText (names : Names) (j : Plan × JoinKind) : Except BadIndex String :=
  (below names j.1).map fun list => joinKeyword j.2 ++ "(" ++ list ++ ") "

def rowsText (names : Names) (j : Plan × JoinKind) : Except BadIndex String :=
  (below names j.1).map fun list =>
    "ROWS(" ++ list ++ " #" ++ Decimal.fixed 0 (reckoned j.1) ++ ") "

def scanText (names : Names) (s : ScanMethod × Nat) : Except BadIndex String :=
  (names.get s.2).map fun name => s.1.keyword ++ "(" ++ Plan.quoteIdentifier name ++ ") "

/-- What directives say about some joins and scans. -/
structure Describes (names : Names) (joined : List (Plan × JoinKind))
    (scanned : List (ScanMethod × Nat)) (d : Directives) : Prop where
  joinCount : d.joinCount = joined.length
  join : ∃ entries, joined.mapM (joinText names) = .ok entries ∧ d.join = "\n".intercalate entries
  rows : ∃ entries, (misses joined).mapM (rowsText names) = .ok entries ∧
    d.rows = "\n".intercalate entries
  scan : ∃ entries, scanned.mapM (scanText names) = .ok entries ∧ d.scan = inFives entries
  totalDiff : d.totalDiff = joined.foldl (fun sum j => sum + (reckoned j.1 - j.1.estimate).abs) 0

/-! A finite number equals itself. -/

theorem bne_self {x : Float} (h : x.isFinite = true) : (x != x) = false := by
  have hne : x ≠ .nan := by
    rintro rfl
    exact absurd h (by decide +kernel)
  rw [bne, Float.beq_self_iff.2 hne, Bool.not_true]

/-- With a finite estimate, rows that are reckoned with and are not the estimate were counted. -/
theorem bne_reckoned {q : Plan} (h : q.estimate.isFinite = true) :
    (q.estimate != reckoned q) = misestimated q := by
  unfold reckoned misestimated
  cases q.counts? with
  | none => exact bne_self h
  | some c =>
      by_cases hloops : 0 < c.loops
      · simp [hloops]
      · simp [hloops, bne_self h]

/-! The entries. -/

theorem length_of_mapM {α β ε : Type} {f : α → Except ε β} {items : List α} {entries : List β}
    (h : items.mapM f = .ok entries) : entries.length = items.length :=
  (mapM_eq_ok.1 h).length_eq.symm

/-- The entry of a node is for the scan or the join that it is. -/
theorem Item.entry_cases {names : Names} {q : Plan} {values : List Entry}
    (h : (Item.ofNode? q).toList.mapM (Item.entry names) = .ok values) :
    (∃ method relation name, scanOf? q = some (method, relation) ∧ joinOf? q = none ∧
      names.get relation = .ok name ∧ values = [⟨.scan method, name⟩]) ∨
    (∃ kind list, scanOf? q = none ∧ joinOf? q = some (q, kind) ∧ below names q = .ok list ∧
      values = [⟨.join kind q.estimate (reckoned q), list⟩]) ∨
    (scanOf? q = none ∧ joinOf? q = none ∧ values = []) := by
  unfold Item.ofNode? at h
  unfold scanOf? joinOf?
  split at h
  · rename_i kind relation hkind
    rw [hkind]
    cases hmethod : ScanMethod.ofKind? kind with
    | none =>
        rw [hmethod] at h
        exact .inr (.inr ⟨by simp only [hmethod, Option.map_none], rfl, (Except.ok.inj h).symm⟩)
    | some method =>
        rw [hmethod, Option.map_some, Option.toList_some, List.mapM_cons, Item.entry,
          List.mapM_cons] at h
        cases hname : names.get relation with
        | error bad => rw [hname] at h; cases h
        | ok name =>
            rw [hname] at h
            exact .inl ⟨method, relation, name, by simp only [hmethod, Option.map_some], rfl, hname,
              (Except.ok.inj h).symm⟩
  · rename_i kind hkind
    rw [hkind]
    rw [Option.toList_some, List.mapM_cons, Item.entry_toList] at h
    cases hlist : names.list (q.collectRelations .skipAuxiliary) with
    | error bad => rw [hlist] at h; cases h
    | ok list =>
        rw [hlist] at h
        exact .inr (.inl ⟨kind, list, rfl, rfl, hlist, (Except.ok.inj h).symm⟩)
  · rename_i hscan hjoin
    refine .inr (.inr ⟨?_, ?_, (Except.ok.inj h).symm⟩)
    · split
      · exact absurd ‹_› (hscan _ _)
      · rfl
    · split
      · exact absurd ‹_› (hjoin _)
      · rfl

/-- What one projects of the items of some nodes can be made of the nodes one by one. -/
theorem mapM_filterMap_ok {ν α β γ δ ε : Type} {item : ν → Option α} {f : α → Except ε β}
    {source : ν → Option γ} {make : γ → Except ε δ} {part : β → Option δ}
    {nodes : List ν} (hstep : ∀ q ∈ nodes, ∀ values, (item q).toList.mapM f = .ok values →
      (source q).toList.mapM make = .ok (values.filterMap part))
    {values : List β} (h : (nodes.filterMap item).mapM f = .ok values) :
    (nodes.filterMap source).mapM make = .ok (values.filterMap part) := by
  induction nodes generalizing values with
  | nil =>
      obtain rfl := Except.ok.inj h
      rfl
  | cons q nodes ih =>
      rw [filterMap_cons_toList] at h
      rw [filterMap_cons_toList]
      obtain ⟨first, rest, hq, hnodes, rfl⟩ := mapM_append_eq_ok.1 h
      rw [List.filterMap_append]
      exact mapM_append_eq_ok.2 ⟨_, _, hstep q List.mem_cons_self first hq,
        ih (fun q' hq' => hstep q' (List.mem_cons_of_mem q hq')) hnodes, rfl⟩

/-- What is made of each scan by its own name can be read off the entries. -/
theorem mapM_scans {δ : Type} {names : Names} {make : ScanMethod × Nat → Except BadIndex δ}
    {part : Entry → Option δ}
    (hscan : ∀ method relation name, names.get relation = .ok name →
      ∃ y, make (method, relation) = .ok y ∧ part ⟨.scan method, name⟩ = some y)
    (hjoin : ∀ kind estimate actual list, part ⟨.join kind estimate actual, list⟩ = none)
    {nodes : List Plan} {entries : List Entry}
    (h : (nodes.filterMap Item.ofNode?).mapM (Item.entry names) = .ok entries) :
    (nodes.filterMap scanOf?).mapM make = .ok (entries.filterMap part) := by
  refine mapM_filterMap_ok (fun q _ values hvalues => ?_) h
  rcases Item.entry_cases hvalues with ⟨method, relation, name, hq, -, hname, rfl⟩ |
    ⟨kind, list, hq, -, -, rfl⟩ | ⟨hq, -, rfl⟩
  · obtain ⟨y, hy, hpart⟩ := hscan method relation name hname
    rw [hq, Option.toList_some, List.mapM_cons, hy, List.filterMap_cons_some hpart]
    rfl
  · rw [hq, List.filterMap_cons_none (hjoin ..)]
    rfl
  · rw [hq]
    rfl

theorem mapM_scanText {names : Names} {nodes : List Plan} {entries : List Entry}
    (h : (nodes.filterMap Item.ofNode?).mapM (Item.entry names) = .ok entries) :
    (nodes.filterMap scanOf?).mapM (scanText names) = .ok (entries.filterMap Entry.scan?) := by
  refine mapM_scans (fun method relation name hname => ?_) (fun _ _ _ _ => rfl) h
  exact ⟨method.keyword ++ "(" ++ Plan.quoteIdentifier name ++ ") ", by rw [scanText, hname]; rfl,
    rfl⟩

theorem mapM_joinText {names : Names} {nodes : List Plan} {entries : List Entry}
    (h : (nodes.filterMap Item.ofNode?).mapM (Item.entry names) = .ok entries) :
    (nodes.filterMap joinOf?).mapM (joinText names) = .ok (entries.filterMap Entry.join?) := by
  refine mapM_filterMap_ok (fun q _ values hq => ?_) h
  rcases Item.entry_cases hq with ⟨method, relation, name, -, hjoin, -, rfl⟩ |
    ⟨kind, list, -, hjoin, hlist, rfl⟩ | ⟨-, hjoin, rfl⟩
  · rw [hjoin]
    rfl
  · rw [hjoin, Option.toList_some, List.mapM_cons, joinText, hlist]
    rfl
  · rw [hjoin]
    rfl

theorem mapM_rowsText {names : Names} {nodes : List Plan} {entries : List Entry}
    (hfinite : ∀ q ∈ nodes, q.estimate.isFinite = true)
    (h : (nodes.filterMap Item.ofNode?).mapM (Item.entry names) = .ok entries) :
    (misses (nodes.filterMap joinOf?)).mapM (rowsText names) =
      .ok (entries.filterMap Entry.rows?) := by
  rw [misses, List.filter_filterMap]
  refine mapM_filterMap_ok (fun q hq values hvalues => ?_) h
  rcases Item.entry_cases hvalues with ⟨method, relation, name, -, hjoin, -, rfl⟩ |
    ⟨kind, list, -, hjoin, hlist, rfl⟩ | ⟨-, hjoin, rfl⟩
  · rw [hjoin]
    rfl
  · have hrows : (⟨.join kind q.estimate (reckoned q), list⟩ : Entry).rows? =
        if misestimated q then
          some ("ROWS(" ++ list ++ " #" ++ Decimal.fixed 0 (reckoned q) ++ ") ")
        else none := by
      rw [Entry.rows?, Mark.rowCount?, bne_reckoned (hfinite q hq)]
      cases misestimated q <;> rfl
    rw [hjoin, Option.filter_some, List.filterMap_cons, hrows]
    cases misestimated q with
    | false => rfl
    | true =>
        simp only [if_true, Option.toList_some, List.mapM_cons, rowsText, hlist]
        rfl
  · rw [hjoin]
    rfl

theorem rowDiffs_eq {names : Names} {nodes : List Plan} {entries : List Entry}
    (h : (nodes.filterMap Item.ofNode?).mapM (Item.entry names) = .ok entries) :
    entries.filterMap Entry.rowDiff? =
      (nodes.filterMap joinOf?).map fun j => (reckoned j.1 - j.1.estimate).abs := by
  have hdiffs : (nodes.filterMap joinOf?).mapM (fun j => Except.ok (ε := BadIndex)
      (reckoned j.1 - j.1.estimate).abs) = .ok (entries.filterMap Entry.rowDiff?) := by
    refine mapM_filterMap_ok (fun q _ values hvalues => ?_) h
    rcases Item.entry_cases hvalues with ⟨method, relation, name, -, hjoin, -, rfl⟩ |
      ⟨kind, list, -, hjoin, -, rfl⟩ | ⟨-, hjoin, rfl⟩
    · rw [hjoin]
      rfl
    · rw [hjoin]
      rfl
    · rw [hjoin]
      rfl
  rw [← Except.ok.injEq (ε := BadIndex), ← hdiffs]
  exact List.mapM_pure

/-- A misestimated nested loop over a scan with a subplan and a merge join that was not counted,
behind a gather that is not shown. -/
def gathered : Plan where
  kind := .gather true
  estimate := 20
  outer? := some ((Plan.join .nestLoop
    ((Plan.scan .seq 1 3).withSubPlan ((Plan.join .hashJoin (Plan.scan .seq 4 1) (Plan.scan .tid 1 1)
      7).withActual 1000))
    (Plan.join .mergeJoin (Plan.scan .indexOnly 2 5)
      (Plan.unary "Hash" (Plan.composite .append [Plan.scan .bitmapHeap 3 5] 5) 5) 5) 20).withActual 2)

def gatheredTable : RangeTable :=
  [.ofRelation "a", .ofRelation "Orders", .aliased "orders" "o", .ofRelation "b"]

end PlanFeedback.Advice
