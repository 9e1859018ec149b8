import PlanFeedback.Proofs.Auxiliary
import PlanFeedback.Proofs.JoinTree

/-!
The join order directive agrees with the scan and join directives, though a traversal of its own
writes it: its leaves are the scans that have a directive, its groups the joins that have one, and
the leaves of a group are among the relations collected below its join.
-/
namespace PlanFeedback.Advice

open Plan (BadIndex Names RangeTable JoinKind ScanKind)

namespace JoinTree

variable {α β ε : Type}

mutual

/-- What stands in each group, in the order in which the groups open. -/
def groupsAt : JoinTree α → List (List (JoinTree α))
  | .leaf _ => []
  | .group inputs => inputs :: groupsOf inputs

def groupsOf : List (JoinTree α) → List (List (JoinTree α))
  | [] => []
  | t :: ts => groupsAt t ++ groupsOf ts

end

def leaves (ts : List (JoinTree α)) : List α := (leavesOf 0 ts).map Prod.fst

theorem groupsOf_append (ts us : List (JoinTree α)) :
    groupsOf (ts ++ us) = groupsOf ts ++ groupsOf us := by
  induction ts with
  | nil => rfl
  | cons t ts ih => rw [List.cons_append, groupsOf, ih, groupsOf, List.append_assoc]

mutual

theorem length_groupsAt_traverse {f : α → Except ε β} : ∀ {t : JoinTree α} {u : JoinTree β},
    traverse f t = .ok u → (groupsAt u).length = (groupsAt t).length
  | .leaf a, u, h => by
      rw [traverse] at h
      obtain ⟨b, -, rfl⟩ := map_eq_ok.1 h
      rfl
  | .group inputs, u, h => by
      rw [traverse] at h
      obtain ⟨us, hus, rfl⟩ := map_eq_ok.1 h
      exact congrArg (· + 1) (length_groupsOf_traverse hus)

theorem length_groupsOf_traverse {f : α → Except ε β} :
    ∀ {ts : List (JoinTree α)} {us : List (JoinTree β)}, traverseAll f ts = .ok us →
      (groupsOf us).length = (groupsOf ts).length
  | [], us, h => by
      obtain rfl := Except.ok.inj h
      rfl
  | t :: ts, us, h => by
      rw [traverseAll] at h
      obtain ⟨u, ht, h⟩ := bind_eq_ok.1 h
      obtain ⟨rest, hts, h⟩ := bind_eq_ok.1 h
      obtain rfl := Except.ok.inj h
      rw [groupsOf, groupsOf, List.length_append, List.length_append,
        length_groupsAt_traverse ht, length_groupsOf_traverse hts]

end

end JoinTree

/-! What a node is. -/

/-- The node is a scan that the join order names. -/
def isOrderedScan (q : Plan) : Bool := (leafOf? q.kind).isSome

/-- The scans that the join order names are those with a method. -/
theorem ofKind?_isSome (kind : ScanKind) : (ScanMethod.ofKind? kind).isSome = isOrdered kind := by
  cases kind <;> rfl

theorem isSome_leafOf? (kind : ScanKind) (relation : Nat) :
    (leafOf? (.scan kind relation)).isSome = isOrdered kind := by
  cases kind <;> rfl

/-- A node is the same to both traversals: a scan, a join, or nothing beside its inputs. -/
theorem node_cases (q : Plan) :
    (∃ method relation, scanOf? q = some (method, relation) ∧ joinOf? q = none ∧
      isOrderedScan q = true ∧ (∀ joins, orderedScans q joins = [(relation, joins)]) ∧
      forest q = [.leaf relation]) ∨
    (∃ kind, scanOf? q = none ∧ joinOf? q = some (q, kind) ∧ q.kind.isJoin = true ∧
      (∀ joins, orderedScans q joins = inputScans q (joins + 1)) ∧
      forest q = [.group (inputForest q)]) ∨
    (scanOf? q = none ∧ joinOf? q = none ∧ (∀ joins, orderedScans q joins = inputScans q joins) ∧
      forest q = inputForest q) := by
  have hordered : ∀ joins, orderedScans q joins = _ := orderedScans_eq q
  have hforest : forest q = _ := forest_eq q
  unfold scanOf? joinOf? isOrderedScan
  cases hkind : q.kind with
  | scan kind relation =>
      simp only [hkind] at hordered hforest
      cases hmethod : ScanMethod.ofKind? kind with
      | some method =>
          have hnamed : isOrdered kind = true := by rw [← ofKind?_isSome, hmethod]; rfl
          simp only [hnamed, if_true] at hordered hforest
          exact .inl ⟨method, relation, by simp only [hmethod, Option.map_some], rfl,
            (isSome_leafOf? kind relation).trans hnamed, hordered, hforest⟩
      | none =>
          have hnamed : isOrdered kind = false := by rw [← ofKind?_isSome, hmethod]; rfl
          simp only [hnamed, Bool.false_eq_true, if_false] at hordered hforest
          exact .inr (.inr ⟨by simp only [hmethod, Option.map_none], rfl, hordered, hforest⟩)
  | join kind =>
      simp only [hkind] at hordered hforest
      exact .inr (.inl ⟨kind, rfl, rfl, rfl, hordered, hforest⟩)
  | bitmapIndexScan | foreignScan | customScan | modifyTable | composite | gather | other =>
      simp only [hkind] at hordered hforest
      exact .inr (.inr ⟨rfl, rfl, hordered, hforest⟩)

/-! Scans without further scans or joins below them. -/

/-- No scan that the join order names has a join or another such scan below it on the spine. -/
def ScansEnd (p : Plan) : Prop :=
  ∀ q ∈ p.spine, isOrderedScan q = true →
    ∀ c ∈ q.spine.tail, c.kind.isJoin = false ∧ isOrderedScan c = false

theorem tail_spine (p : Plan) :
    p.spine.tail = p.outer?.elim [] Plan.spine ++ p.inner?.elim [] Plan.spine := by
  rw [Plan.spine_eq, List.tail_cons]

namespace ScansEnd

variable {p c : Plan}

theorem outer (h : ScansEnd p) (hc : p.outer? = some c) : ScansEnd c := by
  intro q hq
  apply h q
  rw [Plan.spine_eq, hc]
  exact List.mem_cons_of_mem p (List.mem_append_left _ hq)

theorem inner (h : ScansEnd p) (hc : p.inner? = some c) : ScansEnd c := by
  intro q hq
  apply h q
  rw [Plan.spine_eq, hc]
  exact List.mem_cons_of_mem p (List.mem_append_right _ hq)

theorem below (h : ScansEnd p) (hp : isOrderedScan p = true) :
    p.spine.tail.filterMap scanOf? = [] ∧ p.spine.tail.filterMap joinOf? = [] := by
  have hself : p ∈ p.spine := by
    rw [Plan.spine_eq]
    exact List.mem_cons_self
  have hquiet : ∀ c ∈ p.spine.tail, scanOf? c = none ∧ joinOf? c = none := by
    intro c hc
    obtain ⟨hjoin, hscan⟩ := h p hself hp c hc
    rcases node_cases c with ⟨method, relation, -, -, hordered, -⟩ | ⟨kind, -, -, hkind, -⟩ |
      ⟨hnoScan, hnoJoin, -⟩
    · rw [hscan] at hordered
      cases hordered
    · rw [hjoin] at hkind
      cases hkind
    · exact ⟨hnoScan, hnoJoin⟩
  exact ⟨List.filterMap_eq_nil_iff.2 fun c hc => (hquiet c hc).1,
    List.filterMap_eq_nil_iff.2 fun c hc => (hquiet c hc).2⟩

end ScansEnd

/-! The traversals side by side. -/

/-- The leaves of the forest are the scans of the spine, and its groups the joins, both in the same
order. -/
theorem traversals_agree {p : Plan} (h : ScansEnd p) :
    (∀ joins, (orderedScans p joins).map Prod.fst = (p.spine.filterMap scanOf?).map Prod.snd) ∧
      JoinTree.groupsOf (forest p) = (p.spine.filterMap joinOf?).map fun j => inputForest j.1 := by
  induction p using Plan.induction_spine with
  | step p houter hinner =>
      have hscans : ∀ joins, (inputScans p joins).map Prod.fst =
          (p.spine.tail.filterMap scanOf?).map Prod.snd := by
        intro joins
        rw [inputScans, flatMap_inputs fun c => orderedScans c joins, tail_spine, List.map_append,
          List.filterMap_append, List.map_append]
        congr 1
        · cases hc : p.outer? with
          | none => rfl
          | some c => exact (houter c hc (h.outer hc)).1 joins
        · cases hc : p.inner? with
          | none => rfl
          | some c => exact (hinner c hc (h.inner hc)).1 joins
      have hgroups : JoinTree.groupsOf (inputForest p) =
          (p.spine.tail.filterMap joinOf?).map fun j => inputForest j.1 := by
        rw [inputForest, flatMap_inputs forest, tail_spine, JoinTree.groupsOf_append,
          List.filterMap_append, List.map_append]
        congr 1
        · cases hc : p.outer? with
          | none => rfl
          | some c => exact (houter c hc (h.outer hc)).2
        · cases hc : p.inner? with
          | none => rfl
          | some c => exact (hinner c hc (h.inner hc)).2
      have hspine : p.spine = p :: p.spine.tail := by rw [tail_spine, ← Plan.spine_eq]
      rw [hspine]
      rcases node_cases p with ⟨method, relation, hscan, hjoin, hp, hordered, hforest⟩ |
        ⟨kind, hscan, hjoin, -, hordered, hforest⟩ | ⟨hscan, hjoin, hordered, hforest⟩
      · obtain ⟨hnoScans, hnoJoins⟩ := h.below hp
        rw [List.filterMap_cons_some hscan, List.filterMap_cons_none hjoin, hnoScans, hnoJoins,
          hforest]
        exact ⟨fun joins => by rw [hordered]; rfl, rfl⟩
      · rw [List.filterMap_cons_none hscan, List.filterMap_cons_some hjoin, hforest,
          JoinTree.groupsOf, JoinTree.groupsAt, hgroups, JoinTree.groupsOf, List.append_nil]
        exact ⟨fun joins => by rw [hordered, hscans], rfl⟩
      · rw [List.filterMap_cons_none hscan, List.filterMap_cons_none hjoin, hforest]
        exact ⟨fun joins => by rw [hordered, hscans], hgroups⟩

/-- The join order directive of a plan speaks of the scans and joins that the others speak of. -/
structure Agrees (names : Names) (p : Plan) (d : Directives) : Prop where
  order : ∃ s, skeleton names p = .ok s ∧ d.leading = "LEADING( " ++ JoinTree.textOf s ++ " )" ∧
    (JoinTree.groupsOf s).length = d.joinCount
  scan : ∃ entries, (p.spine.filterMap scanOf?).mapM (scanText names) = .ok entries ∧
    d.scan = inFives entries
  join : ∃ entries, (p.spine.filterMap joinOf?).mapM (joinText names) = .ok entries ∧
    d.join = "\n".intercalate entries
  /-- The leaves are the relations of the scan directives, in the same order. -/
  leaves : JoinTree.leaves (forest p) = (p.spine.filterMap scanOf?).map Prod.snd
  /-- The groups are the inputs of the joins with a directive, in the same order. -/
  groups : JoinTree.groupsOf (forest p) = (p.spine.filterMap joinOf?).map fun j => inputForest j.1
  /-- The leaves of a group are among the relations in the directive of its join. -/
  below : ∀ j ∈ p.spine.filterMap joinOf?, ∀ r ∈ JoinTree.leaves (inputForest j.1),
    r ∈ j.1.collectRelations .skipAuxiliary

/-- The directives of a plan agree if none of its scans with a directive has a join or another such
scan below it. -/
theorem directives_agree {table : RangeTable} {p : Plan} {d : Directives}
    (hscans : ScansEnd p.effectiveRoot) (h : directives table p = .ok d) :
    ∃ names, relationNames table p = .ok names ∧ Agrees names p.effectiveRoot d := by
  obtain ⟨names, entries, hnames, hentries, hd, hleading⟩ := exists_entries h
  obtain ⟨hleaves, hgroups⟩ := traversals_agree hscans
  obtain ⟨s, hs, htext⟩ := leading_eq_ok hleading
  have hjoins := mapM_joinText hentries
  have hcount : (JoinTree.groupsOf s).length = d.joinCount := by
    rw [JoinTree.length_groupsOf_traverse hs, hgroups, List.length_map, hd.joinCount,
      length_of_mapM hjoins]
  refine ⟨names, hnames, {
    order := ⟨s, hs, htext, hcount⟩
    scan := ⟨_, mapM_scanText hentries, hd.scan⟩
    join := ⟨_, hjoins, hd.join⟩
    leaves := ?_
    groups := hgroups
    below := ?_ }⟩
  · rw [JoinTree.leaves, leavesOf_forest, hleaves]
  · intro j _ r hr
    obtain ⟨⟨r, depth⟩, hleaf, rfl⟩ := List.mem_map.1 hr
    rw [leavesOf_inputForest] at hleaf
    exact mem_collectRelations_of_orderedScans.1 0 depth hleaf

/-- A join of a bitmap scan over its index and of a join below which one input is an append. The
sequential scan has a sub plan with a join of its own. -/
def crossed : Plan where
  kind := .gather true
  estimate := 20
  outer? := some (.join .nestLoop
    { Plan.scan .bitmapHeap 1 5 with outer? := some (.leaf (.bitmapIndexScan "key") 5) }
    (.join .mergeJoin ((Plan.scan .seq 2 5).withSubPlan (.join .hashJoin (.scan .cte 4 1)
      (.scan .tid 1 1) 7)) (.unary "Sort" (.join .hashJoin (.scan .function 3 5)
        (.composite .append [.scan .index 4 5] 5) 5) 5) 5) 20)

def crossedTable : RangeTable :=
  [.ofRelation "a", .ofRelation "b", .ofRelation "c", .ofRelation "d"]

theorem directives_agree_crossed :
    ScansEnd crossed.effectiveRoot ∧
      ∃ d, directives crossedTable crossed = .ok d ∧
        ∃ names, relationNames crossedTable crossed = .ok names ∧
          Agrees names crossed.effectiveRoot d := by
  have hscans : ScansEnd crossed.effectiveRoot := by
    unfold ScansEnd
    decide +kernel
  have hok : (directives crossedTable crossed).isOk = true := by decide +kernel
  refine ⟨hscans, ?_⟩
  cases hd : directives crossedTable crossed with
  | error bad => rw [hd] at hok; cases hok
  | ok d => exact ⟨d, rfl, directives_agree hscans hd⟩

end PlanFeedback.Advice
