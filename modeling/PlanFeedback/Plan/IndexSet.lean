/-!
Finite sets of relation indexes, kept as strictly increasing lists, which is the order in which
names are listed.
-/
namespace PlanFeedback.Plan

/-- Puts an index into its place in an increasing list. -/
def insertIndex (r : Nat) : List Nat → List Nat
  | [] => [r]
  | s :: rest =>
    if r < s then r :: s :: rest
    else if r = s then s :: rest
    else s :: insertIndex r rest

theorem mem_insertIndex {r x : Nat} {l : List Nat} : x ∈ insertIndex r l ↔ x = r ∨ x ∈ l := by
  induction l with
  | nil => simp [insertIndex]
  | cons s rest ih =>
    unfold insertIndex
    split
    · simp
    · split
      · rename_i h
        subst h
        simp
      · simp [ih, or_left_comm]

theorem pairwise_insertIndex {r : Nat} {l : List Nat} (h : l.Pairwise (· < ·)) :
    (insertIndex r l).Pairwise (· < ·) := by
  induction l with
  | nil => simp [insertIndex]
  | cons s rest ih =>
    obtain ⟨least, increasing⟩ := List.pairwise_cons.1 h
    unfold insertIndex
    split
    · rename_i hlt
      refine List.pairwise_cons.2 ⟨?_, h⟩
      intro x hx
      rcases List.mem_cons.1 hx with rfl | hx
      · exact hlt
      · exact Nat.lt_trans hlt (least x hx)
    · split
      · exact h
      · rename_i hge hne
        refine List.pairwise_cons.2 ⟨?_, ih increasing⟩
        intro x hx
        rcases mem_insertIndex.1 hx with rfl | hx
        · omega
        · exact least x hx

/-- A finite set of indexes. -/
structure IndexSet where
  toList : List Nat
  increasing : toList.Pairwise (· < ·)
  deriving DecidableEq

namespace IndexSet

def empty : IndexSet := ⟨[], List.Pairwise.nil⟩

def insert (r : Nat) (s : IndexSet) : IndexSet :=
  ⟨insertIndex r s.toList, pairwise_insertIndex s.increasing⟩

def ofList : List Nat → IndexSet
  | [] => empty
  | r :: rest => (ofList rest).insert r

def contains (s : IndexSet) (r : Nat) : Bool := s.toList.contains r

instance : Membership Nat IndexSet := ⟨fun s r => r ∈ s.toList⟩

theorem mem_insert {r x : Nat} {s : IndexSet} : x ∈ s.insert r ↔ x = r ∨ x ∈ s :=
  mem_insertIndex

theorem mem_ofList {x : Nat} {l : List Nat} : x ∈ ofList l ↔ x ∈ l := by
  induction l with
  | nil =>
    refine ⟨fun h => ?_, fun h => nomatch h⟩
    exact (List.not_mem_nil h).elim
  | cons r rest ih => rw [ofList, mem_insert, ih, List.mem_cons]

/-- Two sets with the same members are equal. -/
theorem ext_mem {s t : IndexSet} (h : ∀ x, x ∈ s ↔ x ∈ t) : s = t := by
  obtain ⟨l, hl⟩ := s
  obtain ⟨m, hm⟩ := t
  have same : l = m := by
    induction l generalizing m with
    | nil =>
      cases m with
      | nil => rfl
      | cons y _ => exact absurd ((h y).2 List.mem_cons_self) List.not_mem_nil
    | cons x xs ih =>
      cases m with
      | nil => exact absurd ((h x).1 List.mem_cons_self) List.not_mem_nil
      | cons y ys =>
        obtain ⟨hx, hxs⟩ := List.pairwise_cons.1 hl
        obtain ⟨hy, hys⟩ := List.pairwise_cons.1 hm
        have head : x = y := by
          rcases List.mem_cons.1 ((h x).1 List.mem_cons_self) with e | e
          · exact e
          · rcases List.mem_cons.1 ((h y).2 List.mem_cons_self) with e' | e'
            · exact e'.symm
            · have := hy x e
              have := hx y e'
              omega
        subst head
        congr 1
        refine ih hxs ys hys fun z => ?_
        have step : z ∈ x :: xs ↔ z ∈ x :: ys := h z
        rw [List.mem_cons, List.mem_cons] at step
        constructor
        · intro hz
          have := hx z hz
          rcases step.1 (Or.inr hz) with rfl | hz'
          · omega
          · exact hz'
        · intro hz
          have := hy z hz
          rcases step.2 (Or.inr hz) with rfl | hz'
          · omega
          · exact hz'
  subst same
  rfl

end IndexSet

end PlanFeedback.Plan
