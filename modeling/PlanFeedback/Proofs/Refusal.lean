import PlanFeedback.Proofs.Indexes

/-!
Which relation a refusal tells. Directives are refused for the least relation of the plan that the
range table lacks, and the shape for the first one in the order of its document, where exclusion
relations are not shown.
-/
namespace PlanFeedback

namespace Advice

open Plan (Mentions Names RangeTable isBad_iff)

/-- In an increasing list the first is the least. -/
theorem find?_eq_some_iff_isLeast {l : List Nat} (hl : l.Pairwise (· < ·)) {f : Nat → Bool}
    {n : Nat} : l.find? f = some n ↔ IsLeast {m | m ∈ l ∧ f m = true} n := by
  have hfirst : ∀ {n}, l.find? f = some n → IsLeast {m | m ∈ l ∧ f m = true} n := by
    intro n h
    obtain ⟨hn, before, after, rfl, hbefore⟩ := List.find?_eq_some_iff_append.1 h
    refine ⟨⟨by simp, hn⟩, ?_⟩
    rintro m ⟨hm, hfm⟩
    rw [List.mem_append, List.mem_cons] at hm
    rcases hm with hm | rfl | hm
    · exact absurd hfm (by simpa using hbefore m hm)
    · exact Nat.le_refl m
    · have hrest := (List.pairwise_append.1 hl).2.1
      exact Nat.le_of_lt ((List.pairwise_cons.1 hrest).1 m hm)
  refine ⟨hfirst, fun h => ?_⟩
  cases hfind : l.find? f with
  | none => exact absurd h.1.2 (List.find?_eq_none.1 hfind n h.1.1)
  | some m => rw [(hfirst hfind).unique h]

/-- A plan is refused exactly if it refers to a relation that the table lacks, and the error tells
the least such relation. Once names are given out nothing fails. The shape is refused exactly if its
document would show such a relation, and the error tells the first in the order of the document. -/
theorem refusal_tells (table : RangeTable) (p : Plan) :
    ((∃ d, directives table p = .ok d) ↔ ∀ r, Mentions r p → 0 < r ∧ r ≤ table.length) ∧
    (∀ bad, directives table p = .error bad ↔ bad.length = table.length ∧
      IsLeast {r | Mentions r p ∧ ¬ (0 < r ∧ r ≤ table.length)} bad.index) ∧
    (∀ names, relationNames table p = .ok names →
      (∃ draft, Draft.addPlan names table p.effectiveRoot {} = .ok draft) ∧
      (∀ q ∈ p.nodes, ∀ filter, ∃ list, names.list (q.collectRelations filter) = .ok list) ∧
      ∃ order, leading names p.effectiveRoot = .ok order) ∧
    ((∃ bad, shape table p = .error bad) ↔ ∃ r ∈ p.shown, ¬ (0 < r ∧ r ≤ table.length)) ∧
    ∀ bad, shape table p = .error bad ↔ bad.length = table.length ∧
      p.shown.find? (fun r => r = 0 ∨ table.length < r) = some bad.index := by
  have hused : ∀ r, r ∈ (p.collectRelations .all).toList ↔ Mentions r p :=
    fun _ => Plan.mem_collectRelations_all
  have hdirectives := looksUp_directives table p
  have hshape : LooksUp table.length p.shown (shape table p) := looksUp_shapeAt table p none
  refine ⟨?_, fun bad => ?_, fun names hnames => ?_, hshape.exists_error_iff,
    fun bad => hshape.error_iff⟩
  · rw [hdirectives.exists_ok_iff]
    simp only [hused]
  · rw [hdirectives.error_iff,
      find?_eq_some_iff_isLeast (p.collectRelations .all).increasing]
    simp only [hused, isBad_iff]
  · have hwithin := within_of_relationNames hnames
    have hlength := Names.length_of_assign hnames
    refine ⟨exists_draft hwithin.effectiveRoot hlength {}, fun q hq filter => ?_,
      exists_leading (hlength.symm ▸ hwithin.effectiveRoot)⟩
    refine exists_list (fun r hr => ?_) filter
    rw [hlength]
    exact hwithin r (Plan.mentions_of_nodes hq hr)

/-- Of the three relations that the table lacks the exclusion relation is not shown, and the least
stands in the sub plan. -/
def stranger : Plan where
  kind := .modifyTable 2 (some 3)
  estimate := 5
  outer? := some { Plan.leaf (.foreignScan [1, 7]) 5 with subPlans := [.scan .seq 0 1] }

example : directives [.ofRelation "a", .ofRelation "b"] stranger = .error ⟨0, 2⟩ := rfl

example : shape [.ofRelation "a", .ofRelation "b"] stranger = .error ⟨7, 2⟩ := rfl

end Advice

end PlanFeedback
