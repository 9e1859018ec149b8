import PlanFeedback.Proofs.Auxiliary
import PlanFeedback.Proofs.JoinTree

/-!
The names under which directives speak of relations. However the names of a table collide, no two
used relations share one, and no directive names a relation that was not used when names were given
out.
-/
namespace PlanFeedback

namespace Plan

theorem IndexSet.contains_iff {s : IndexSet} {r : Nat} : s.contains r = true ↔ r ∈ s :=
  List.contains_iff_mem

namespace Names

/-! A name that is not taken. -/

/-- The base is its own name if nobody has it. Otherwise the name has the least positive number as
its suffix that makes it one that nobody has. -/
inductive FirstFree (taken : String → Prop) (base : String) : String → Prop
  | base (hfree : ¬ taken base) : FirstFree taken base base
  | suffix {k : Nat} (htaken : taken base) (hpos : 1 ≤ k)
      (hfree : ¬ taken (base ++ "_" ++ toString k))
      (hleast : ∀ j, 1 ≤ j → j < k → taken (base ++ "_" ++ toString j)) :
      FirstFree taken base (base ++ "_" ++ toString k)

theorem FirstFree.free {taken : String → Prop} {base name : String}
    (h : FirstFree taken base name) : ¬ taken name := by
  cases h with
  | base hfree => exact hfree
  | suffix _ _ hfree _ => exact hfree

theorem FirstFree.congr {taken taken' : String → Prop} {base name : String}
    (hsame : ∀ n, taken n ↔ taken' n) (h : FirstFree taken base name) :
    FirstFree taken' base name := by
  have hpred : taken = taken' := funext fun n => propext (hsame n)
  exact hpred ▸ h

theorem candidate_succ (base : String) (k : Nat) :
    candidate base (k + 1) = base ++ "_" ++ toString (k + 1) := rfl

theorem candidate_injective (base : String) : Function.Injective (candidate base) := by
  have hlonger : ∀ k, candidate base (k + 1) ≠ base := by
    intro k h
    have hlength := congrArg String.length h
    rw [candidate_succ, String.length_append, String.length_append] at hlength
    have hmark : "_".length = 1 := rfl
    omega
  intro i j h
  cases i with
  | zero =>
      cases j with
      | zero => rfl
      | succ j => exact absurd h.symm (hlonger j)
  | succ i =>
      cases j with
      | zero => exact absurd h (hlonger i)
      | succ j =>
          rw [candidate_succ, candidate_succ, String.append_right_inj] at h
          exact Nat.repr_inj.1 h

theorem exists_candidate (taken : List String) (base : String) :
    ∃ k < taken.length + 1, candidate base k ∉ taken := by
  by_contra hnone
  push Not at hnone
  have hnodup : ((List.range (taken.length + 1)).map (candidate base)).Nodup :=
    List.nodup_range.map (candidate_injective base)
  have hsubset : (List.range (taken.length + 1)).map (candidate base) ⊆ taken := by
    intro name hname
    obtain ⟨k, hk, rfl⟩ := List.mem_map.1 hname
    exact hnone k (List.mem_range.1 hk)
  have hlength := (hnodup.subperm hsubset).length_le
  rw [List.length_map, List.length_range] at hlength
  omega

theorem fresh_eq (taken : List String) (base : String) :
    ∃ k, fresh taken base = candidate base k ∧ candidate base k ∉ taken ∧
      ∀ j < k, candidate base j ∈ taken := by
  rw [fresh, List.find?_map]
  cases hfind : (List.range (taken.length + 1)).find?
      ((fun name => !taken.contains name) ∘ candidate base) with
  | none =>
      obtain ⟨k, hk, hfree⟩ := exists_candidate taken base
      have htaken := List.find?_eq_none.1 hfind k (List.mem_range.2 hk)
      simp [hfree] at htaken
  | some k =>
      obtain ⟨hfree, -, hbefore⟩ := List.find?_range_eq_some.1 hfind
      exact ⟨k, rfl, by simpa using hfree, by simpa using hbefore⟩

theorem firstFree_fresh (taken : List String) (base : String) :
    FirstFree (· ∈ taken) base (fresh taken base) := by
  obtain ⟨k, hfresh, hfree, hbefore⟩ := fresh_eq taken base
  rw [hfresh]
  cases k with
  | zero => exact .base hfree
  | succ k =>
      rw [candidate_succ] at hfree ⊢
      refine .suffix (hbefore 0 (Nat.succ_pos k)) (Nat.succ_pos k) hfree fun j hpos hj => ?_
      obtain ⟨i, rfl⟩ := Nat.exists_eq_add_of_le' hpos
      have hmem := hbefore (i + 1) hj
      rwa [candidate_succ] at hmem

/-! The names of a table. -/

/-- What the first entry is named, and which names are taken behind it. -/
theorem assignFrom_cons (used : IndexSet) (taken : List String) (index : Nat) (entry : RangeEntry)
    (table : RangeTable) :
    ∃ name more, name = (if used.contains index then
        fresh taken (entry.alias?.getD entry.reference) else entry.reference) ∧
      (∀ n, n ∈ more ↔ n ∈ taken ∨ index ∈ used ∧ name = n) ∧
      assignFrom used taken index (entry :: table) =
        name :: assignFrom used more (index + 1) table := by
  rw [assignFrom]
  split
  · rename_i hused
    refine ⟨_, fresh taken (entry.alias?.getD entry.reference) :: taken, rfl, fun n => ?_, rfl⟩
    rw [List.mem_cons, or_comm, eq_comm, and_iff_right (IndexSet.contains_iff.1 hused)]
  · rename_i hunused
    refine ⟨_, taken, rfl, fun n => ?_, rfl⟩
    exact (or_iff_left fun h => hunused (IndexSet.contains_iff.2 h.1)).symm

/-- The names that are taken when the entry with the number `i` gets its own: those that were taken
before, and those of the used entries above it. -/
theorem getElem?_assignFrom (used : IndexSet) (taken : List String) (index : Nat)
    {table : RangeTable} {i : Nat} {entry : RangeEntry} (h : table[i]? = some entry) :
    ∃ before, (∀ n, n ∈ before ↔ n ∈ taken ∨
        ∃ j < i, index + j ∈ used ∧ (assignFrom used taken index table)[j]? = some n) ∧
      (assignFrom used taken index table)[i]? = some (if used.contains (index + i) then
        fresh before (entry.alias?.getD entry.reference) else entry.reference) := by
  induction table generalizing taken index i with
  | nil => cases h
  | cons first table ih =>
      obtain ⟨name, more, hname, hmore, hcons⟩ := assignFrom_cons used taken index first table
      cases i with
      | zero =>
          obtain rfl := Option.some.inj h
          refine ⟨taken, by simp, ?_⟩
          rw [hcons, hname]
          rfl
      | succ i =>
          obtain ⟨before, hbefore, hlater⟩ := ih more (index + 1) h
          have hindex : ∀ j, index + 1 + j = index + (j + 1) := by omega
          refine ⟨before, fun n => ?_, ?_⟩
          · rw [hbefore, hmore, hcons, Nat.exists_lt_succ_left]
            simp only [hindex, List.getElem?_cons_succ, List.getElem?_cons_zero, Nat.add_zero,
              Option.some.injEq, or_assoc]
          · rw [hcons, List.getElem?_cons_succ, hlater, hindex]

/-- The name was given to a used entry above the one with the index. -/
def TakenAbove (names : Names) (used : IndexSet) (index : Nat) (name : String) : Prop :=
  ∃ r ∈ used, r < index ∧ names.get r = .ok name

/-- A used entry gets the first free name made of its alias or its reference name, and any other one
its reference name. -/
def GoesBy (names : Names) (used : IndexSet) (index : Nat) (entry : RangeEntry) (name : String) :
    Prop :=
  names.get index = .ok name ∧
    (index ∈ used →
      FirstFree (TakenAbove names used index) (entry.alias?.getD entry.reference) name) ∧
    (index ∉ used → name = entry.reference)

theorem assign_eq_ok {table : RangeTable} {used : IndexSet} {names : Names}
    (h : assign table used = .ok names) :
    (∀ r ∈ used, 0 < r ∧ r ≤ table.length) ∧ names.toList = assignFrom used [] 1 table := by
  have hwithin := (Advice.looksUp_assign table used).exists_ok_iff.1 ⟨names, h⟩
  refine ⟨hwithin, ?_⟩
  rw [assign] at h
  split at h
  · cases h
  · obtain rfl := Except.ok.inj h
    rfl

theorem goesBy_assign {table : RangeTable} {used : IndexSet} {names : Names}
    (h : assign table used = .ok names) {index : Nat} {entry : RangeEntry}
    (hentry : table.get index = .ok entry) : ∃ name, GoesBy names used index entry name := by
  obtain ⟨i, rfl, hi⟩ := itemAt_eq_ok.1 hentry
  obtain ⟨hwithin, hlist⟩ := assign_eq_ok h
  obtain ⟨before, hbefore, hname⟩ := getElem?_assignFrom used [] 1 hi
  rw [Nat.add_comm 1 i] at hname
  rw [← hlist] at hname hbefore
  have habove : ∀ n, n ∈ before ↔ TakenAbove names used (i + 1) n := by
    intro n
    rw [hbefore]
    constructor
    · rintro (hnil | ⟨j, hj, hused, hn⟩)
      · exact absurd hnil List.not_mem_nil
      · rw [Nat.add_comm 1 j] at hused
        exact ⟨j + 1, hused, Nat.succ_lt_succ hj, itemAt_eq_ok.2 ⟨j, rfl, hn⟩⟩
    · rintro ⟨r, hused, hr, hget⟩
      obtain ⟨j, rfl, hn⟩ := itemAt_eq_ok.1 hget
      exact .inr ⟨j, Nat.lt_of_succ_lt_succ hr, Nat.add_comm 1 j ▸ hused, hn⟩
  refine ⟨_, itemAt_eq_ok.2 ⟨i, rfl, hname⟩, fun hused => ?_, fun hunused => ?_⟩
  · rw [if_pos (IndexSet.contains_iff.2 hused)]
    exact (firstFree_fresh before _).congr habove
  · rw [if_neg fun hcontains => hunused (IndexSet.contains_iff.1 hcontains)]

theorem get_injOn {table : RangeTable} {used : IndexSet} {names : Names}
    (h : assign table used = .ok names) : Set.InjOn names.get {r | r ∈ used} := by
  obtain ⟨hwithin, -⟩ := assign_eq_ok h
  -- of two relations with one name the lower would take it from the other
  have hapart : ∀ r ∈ used, ∀ s ∈ used, names.get r = names.get s → ¬ r < s := by
    intro r hr s hs hsame hlt
    obtain ⟨entry, hentry⟩ := exists_itemAt (hwithin s hs)
    obtain ⟨name, hname, hfirst, -⟩ := goesBy_assign h hentry
    exact (hfirst hs).free ⟨r, hr, hlt, hsame.trans hname⟩
  intro r hr s hs hsame
  have hle := hapart r hr s hs hsame
  have hge := hapart s hs r hr hsame.symm
  omega

end Names

end Plan

namespace Advice

open Plan (BadIndex IndexSet Mentions Names RangeTable)

/-- The relations that the directives of a plan name: those of the entries, and those at the leaves
of the join order. -/
def named (p : Plan) : List Nat :=
  (p.spine.filterMap Item.ofNode?).flatMap Item.relations ++
    (JoinTree.leavesOf 0 (forest p)).map Prod.fst

theorem mentions_of_item {q : Plan} {x : Item} (hx : Item.ofNode? q = some x) {r : Nat}
    (hr : r ∈ x.relations) : Mentions r q := by
  rw [Item.ofNode?] at hx
  split at hx
  · rename_i kind relation hkind
    obtain ⟨method, -, rfl⟩ := Option.map_eq_some_iff.1 hx
    obtain rfl := List.mem_singleton.1 hr
    exact .node (by rw [hkind]; exact List.mem_cons_self)
  · obtain rfl := Option.some.inj hx
    exact Plan.mentions_of_mem hr
  · cases hx

/-- Directives name only relations that the plan refers to. -/
theorem mentions_of_named {p : Plan} {r : Nat} (h : r ∈ named p) : Mentions r p := by
  rw [named, List.mem_append] at h
  rcases h with h | h
  · obtain ⟨x, hx, hr⟩ := List.mem_flatMap.1 h
    obtain ⟨q, hq, hitem⟩ := List.mem_filterMap.1 hx
    exact Plan.mentions_of_spine hq (mentions_of_item hitem hr)
  · obtain ⟨⟨r, depth⟩, hleaf, rfl⟩ := List.mem_map.1 h
    rw [leavesOf_forest] at hleaf
    exact Plan.mentions_of_mem (mem_collectRelations_of_orderedScans.2 0 depth hleaf)

/-- Used relations of a table get names of their own: going down the table, each its alias or its
reference name if that is free, and otherwise with the least suffix that is; the other entries keep
their reference names. Directives are written from the names of relations that the plan refers to,
so that no two relations go by one name in them. -/
theorem names_unique (table : RangeTable) :
    (∀ used : IndexSet, (∀ r ∈ used, 0 < r ∧ r ≤ table.length) →
      ∃ names, Names.assign table used = .ok names ∧
        (∀ index entry, table.get index = .ok entry →
          ∃ name, names.GoesBy used index entry name) ∧
        Set.InjOn names.get {r | r ∈ used}) ∧
    ∀ p d, directives table p = .ok d →
      ∃ names entries trees, relationNames table p = .ok names ∧
        (p.effectiveRoot.spine.filterMap Item.ofNode?).mapM (Item.entry names) = .ok entries ∧
        Written entries d ∧
        skeleton names p.effectiveRoot = .ok trees ∧
        d.leading = "LEADING( " ++ JoinTree.textOf trees ++ " )" ∧
        (∀ r ∈ named p.effectiveRoot, r ∈ p.collectRelations .all) ∧
        Set.InjOn names.get {r | r ∈ named p.effectiveRoot} := by
  constructor
  · intro used hwithin
    obtain ⟨names, hnames⟩ := (looksUp_assign table used).exists_ok_iff.2 hwithin
    exact ⟨names, hnames, fun index entry hentry => Names.goesBy_assign hnames hentry,
      Names.get_injOn hnames⟩
  · intro p d hd
    obtain ⟨names, entries, hnames, hentries, hwritten, hleading⟩ := exists_entries hd
    obtain ⟨trees, htrees, htext⟩ := leading_eq_ok hleading
    have hnamed : ∀ r ∈ named p.effectiveRoot, r ∈ p.collectRelations .all := by
      intro r hr
      rw [Plan.mem_collectRelations_all]
      exact Plan.mentions_of_effectiveRoot (mentions_of_named hr)
    exact ⟨names, entries, trees, hnames, hentries, hwritten, htrees, htext, hnamed,
      (Names.get_injOn hnames).mono hnamed⟩

/-- Two entries with one name, and one that is named like an entry with a suffix. -/
def collidingTable : RangeTable :=
  [.ofRelation "t", .ofRelation "t_1", .ofRelation "t", .aliased "orders" "t"]

def collidingJoin : Plan :=
  .join .hashJoin (.scan .seq 3 10) (.join .nestLoop (.scan .index 1 5) (.scan .seq 2 5) 5) 10

theorem names_unique_colliding :
    (∀ r ∈ IndexSet.ofList [1, 2, 3], 0 < r ∧ r ≤ collidingTable.length) ∧
      ∃ names d, Names.assign collidingTable (.ofList [1, 2, 3]) = .ok names ∧
        directives collidingTable collidingJoin = .ok d ∧
        relationNames collidingTable collidingJoin = .ok names ∧
        Set.InjOn names.get {r | r ∈ named collidingJoin} := by
  have hwithin : ∀ r ∈ IndexSet.ofList [1, 2, 3], 0 < r ∧ r ≤ collidingTable.length := by
    intro r hr
    have hr : r = 1 ∨ r = 2 ∨ r = 3 := by simpa using IndexSet.mem_ofList.1 hr
    have hlength : collidingTable.length = 4 := rfl
    omega
  obtain ⟨d, hd⟩ : ∃ d, directives collidingTable collidingJoin = .ok d := ⟨_, rfl⟩
  obtain ⟨names, hnames, -, -⟩ := (names_unique collidingTable).1 _ hwithin
  obtain ⟨names', -, -, hnames', -, -, -, -, -, hunique⟩ := (names_unique collidingTable).2 _ _ hd
  have hsame : relationNames collidingTable collidingJoin =
      Names.assign collidingTable (.ofList [1, 2, 3]) := rfl
  obtain rfl : names' = names := Except.ok.inj (hnames'.symm.trans (hsame.trans hnames))
  exact ⟨hwithin, names', d, hnames, hd, hnames', hunique⟩

/-- A base that is free is kept, also where it looks like a name with a suffix, and what is not used
takes no name away. -/
example : Names.assign collidingTable (.ofList [1, 2, 3]) = .ok ⟨["t", "t_1", "t_2", "t"]⟩ := by
  decide +kernel

end Advice

end PlanFeedback
