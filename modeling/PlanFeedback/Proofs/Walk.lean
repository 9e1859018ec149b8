import PlanFeedback.Proofs.Lookup

/-!
Walks that stop. A walk whose visits note each edge and stop once the record has some length notes
the first so many of the edges below a plan, in pre-order, and answers whether there were as many.
-/
namespace PlanFeedback.Plan

variable {stopAfter? : Option Nat}

/-! Steps that note visits. -/

/-- The answer and the record of a walk that has noted some visits and comes upon new ones. -/
def noted (stopAfter? : Option Nat) (seen : List Visit) : List Visit → Bool × List Visit
  | [] => (false, seen)
  | v :: rest =>
    if stopAfter? = some (seen.length + 1) then (true, seen ++ [v])
    else noted stopAfter? (seen ++ [v]) rest

/-- A step that comes upon these visits, whatever was noted before. -/
def Notes (stopAfter? : Option Nat) (step : StateM (List Visit) Bool) (new : List Visit) : Prop :=
  ∀ seen, step.run seen = noted stopAfter? seen new

theorem noted_append (seen new later : List Visit) :
    noted stopAfter? seen (new ++ later) =
      match noted stopAfter? seen new with
      | (true, seen') => (true, seen')
      | (false, seen') => noted stopAfter? seen' later := by
  induction new generalizing seen with
  | nil => rfl
  | cons v new ih =>
      rw [List.cons_append, noted, noted]
      by_cases h : stopAfter? = some (seen.length + 1)
      · rw [if_pos h, if_pos h]
      · rw [if_neg h, if_neg h]
        exact ih (seen ++ [v])

theorem noted_none (seen new : List Visit) : noted none seen new = (false, seen ++ new) := by
  induction new generalizing seen with
  | nil => rw [noted, List.append_nil]
  | cons v new ih =>
      rw [noted, if_neg (by simp), ih, List.append_assoc, List.singleton_append]

/-- A record that is already long enough never reaches the length. -/
theorem noted_past {k : Nat} {seen : List Visit} (h : k ≤ seen.length) (new : List Visit) :
    noted (some k) seen new = (false, seen ++ new) := by
  induction new generalizing seen with
  | nil => rw [noted, List.append_nil]
  | cons v new ih =>
      have hnext : k ≤ (seen ++ [v]).length := by
        rw [List.length_append]
        omega
      have hne : some k ≠ some (seen.length + 1) := by
        intro heq
        have := Option.some.inj heq
        omega
      rw [noted, if_neg hne, ih hnext, List.append_assoc, List.singleton_append]

theorem noted_upTo {k : Nat} {seen : List Visit} (h : seen.length < k) (new : List Visit) :
    noted (some k) seen new = (decide (k ≤ (seen ++ new).length), (seen ++ new).take k) := by
  induction new generalizing seen with
  | nil =>
      rw [noted, List.append_nil, List.take_of_length_le (Nat.le_of_lt h),
        decide_eq_false (Nat.not_le_of_lt h)]
  | cons v new ih =>
      have hsplit : seen ++ v :: new = (seen ++ [v]) ++ new := by
        rw [List.append_assoc, List.singleton_append]
      have hlen : (seen ++ [v]).length = seen.length + 1 := List.length_append
      rw [noted]
      by_cases hk : k = seen.length + 1
      · have hreached : k ≤ (seen ++ v :: new).length := by
          rw [hsplit, List.length_append, hlen]
          omega
        rw [if_pos (congrArg some hk), decide_eq_true hreached, hsplit, hk, ← hlen,
          List.take_left]
      · rw [if_neg (fun heq => hk (Option.some.inj heq)), ih (by omega), hsplit]

theorem notes_record (v : Visit) : Notes stopAfter? (record stopAfter? v) [v] := by
  intro seen
  change (stopAfter? == some (seen.length + 1), seen ++ [v]) = _
  rw [noted, noted]
  by_cases h : stopAfter? = some (seen.length + 1)
  · rw [if_pos h, beq_iff_eq.2 h]
  · rw [if_neg h, beq_eq_false_iff_ne.2 h]

theorem run_orElse {σ : Type} (step next : StateM σ Bool) (s : σ) :
    (do if ← step then return true else next : StateM σ Bool).run s =
      match step.run s with
      | (true, t) => (true, t)
      | (false, t) => next.run t := by
  change (match step.run s with
    | (stops, t) => (if stops then pure true else next : StateM σ Bool).run t) = _
  cases step.run s with
  | mk stops t => cases stops <;> rfl

theorem Notes.orElse {step next : StateM (List Visit) Bool} {new later : List Visit}
    (hstep : Notes stopAfter? step new) (hnext : Notes stopAfter? next later) :
    Notes stopAfter? (do if ← step then return true else next) (new ++ later) := by
  intro seen
  rw [run_orElse, hstep seen, noted_append]
  cases noted stopAfter? seen new with
  | mk stops seen' =>
      cases stops with
      | true => rfl
      | false => exact hnext seen'

theorem notes_anyM {α : Type} {visit : α → StateM (List Visit) Bool} {new : α → List Visit}
    {items : List α} (h : ∀ a ∈ items, Notes stopAfter? (visit a) (new a)) :
    Notes stopAfter? (items.anyM visit) (items.flatMap new) := by
  induction items with
  | nil =>
      intro seen
      rfl
  | cons a items ih =>
      rw [List.anyM_cons, List.flatMap_cons]
      apply Notes.orElse
      · exact h a List.mem_cons_self
      · exact ih fun a' ha' => h a' (List.mem_cons_of_mem a ha')

/-! The walk. -/

variable {filter : EdgeFilter} {visit : Edge → Plan → StateM (List Visit) Bool}

/-- The visit notes an edge, stops if the record has reached the length, and else walks on below the
child and answers what that walk answers. -/
def Records (filter : EdgeFilter) (stopAfter? : Option Nat)
    (visit : Edge → Plan → StateM (List Visit) Bool) : Prop :=
  ∀ e c, visit e c = do
    if ← record stopAfter? (e, c) then return true
    walkChildren filter visit c

theorem notes_walkChildren (h : Records filter stopAfter? visit) (p : Plan) :
    Notes stopAfter? (p.walkChildren filter visit) (p.preorder filter) := by
  induction p using induction_edges with
  | step p ih =>
      rw [walkChildren, preorder_eq]
      apply notes_anyM
      intro b hb
      rw [h b.1 b.2]
      exact (notes_record b).orElse (ih b (List.mem_filter.1 hb).1)

def recordingVisit (filter : EdgeFilter) (stopAfter? : Option Nat) (e : Edge) (c : Plan) :
    StateM (List Visit) Bool := do
  if ← record stopAfter? (e, c) then return true
  c.walkRecording filter stopAfter?

theorem anyM_map {m : Type → Type} [Monad m] {α β : Type} (f : α → β) (visit : β → m Bool)
    (items : List α) : (items.map f).anyM visit = items.anyM fun a => visit (f a) := by
  induction items with
  | nil => rfl
  | cons a items ih => rw [List.map_cons, List.anyM_cons, List.anyM_cons, ih]

theorem walkRecording_eq (p : Plan) :
    p.walkRecording filter stopAfter? = p.walkChildren filter (recordingVisit filter stopAfter?) := by
  rw [walkRecording, fold_eq, EdgeFilter.branches, List.filter_map, anyM_map]
  rfl

theorem records_recordingVisit (filter : EdgeFilter) (stopAfter? : Option Nat) :
    Records filter stopAfter? (recordingVisit filter stopAfter?) := by
  intro e c
  rw [← walkRecording_eq]
  rfl

/-- A walk that stops at a length notes that many edges of the pre-order list, or all of them if
there are fewer, and answers whether there were enough. A length of zero is never reached. However
such a visit is written, it makes the same walk. -/
theorem walk_stops (h : Records filter stopAfter? visit) (p : Plan) :
    ((p.walkChildren filter visit).run [] =
      match stopAfter? with
      | some (k + 1) =>
        (decide (k + 1 ≤ (p.preorder filter).length), (p.preorder filter).take (k + 1))
      | some 0 | none => (false, p.preorder filter)) ∧
    p.walkRecording filter stopAfter? = p.walkChildren filter visit := by
  constructor
  · rw [notes_walkChildren h p []]
    match stopAfter? with
    | none => exact noted_none [] _
    | some 0 => exact noted_past (Nat.zero_le _) _
    | some (k + 1) => exact noted_upTo (Nat.zero_lt_succ k) _
  · rw [walkRecording_eq]
    funext seen
    have hrun := notes_walkChildren (records_recordingVisit filter stopAfter?) p seen
    exact hrun.trans (notes_walkChildren h p seen).symm

/-- A join with children of all sorts, the first of which has a child of its own. -/
def bushy : Plan :=
  let leaf : Plan := .scan .seq 1 1
  let outer : Plan := { leaf with subPlans := [leaf] }
  { Plan.join .hashJoin outer leaf 1 with
    members := [leaf], initPlans := [leaf], subPlans := [leaf] }

theorem walk_stops_bushy :
    Records .all (some 4) (recordingVisit .all (some 4)) ∧
    (bushy.preorder .all).map Prod.fst =
      [.outer, .subPlan 0, .inner, .member 0, .initPlan 0, .subPlan 0] ∧
    ((bushy.walkRecording .all (some 4)).run []).1 = true ∧
    ((bushy.walkRecording .all (some 4)).run []).2.map Prod.fst =
      [.outer, .subPlan 0, .inner, .member 0] := by
  have hvisit := records_recordingVisit .all (some 4)
  obtain ⟨hrun, hwalk⟩ := walk_stops hvisit bushy
  have hedges : (bushy.preorder .all).map Prod.fst =
      [.outer, .subPlan 0, .inner, .member 0, .initPlan 0, .subPlan 0] := by
    decide
  have hlength : (bushy.preorder .all).length = 6 := by
    rw [← List.length_map (f := Prod.fst), hedges]
    rfl
  rw [hwalk, hrun]
  refine ⟨hvisit, hedges, ?_, ?_⟩
  · rw [hlength]
    rfl
  · rw [List.map_take, hedges]
    rfl

end PlanFeedback.Plan
