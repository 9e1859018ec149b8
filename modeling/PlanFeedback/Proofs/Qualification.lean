import PlanFeedback.Proofs.Indexes
import PlanFeedback.Proofs.StepFailure
import PlanFeedback.Proofs.Utf8

/-!
Which executions are handled. One that does not qualify is passed over, one that refers to a relation
which its range table lacks is refused, and both leave the repository as it is.
-/
namespace PlanFeedback

namespace Query

open Text

/-! The text that carries the plan. -/

namespace Statement

/-- The statement and what it is wrapped around, from the outside in. -/
def layers : Statement → List Statement
  | .explain analyze target => .explain analyze target :: target.layers
  | .declareCursor target => .declareCursor target :: target.layers
  | .createTableAs target => .createTableAs target :: target.layers
  | .execute name source statement => .execute name source statement :: statement.layers
  | .plain command => [.plain command]
  | .executeUnknown => [.executeUnknown]
  | .utility command => [.utility command]

def prepared? : Statement → Option Source
  | .execute _ source _ => some source
  | _ => none

def resolved (outer : Source) (s : Statement) : Source :=
  (s.layers.filterMap prepared?).getLast?.getD outer

/-- The innermost layer is a utility command or executes nothing. -/
def EndsWithoutQuery (s : Statement) : Prop :=
  s.layers.getLast? = some .executeUnknown ∨ ∃ command, s.layers.getLast? = some (.utility command)

theorem layers_ne_nil (s : Statement) : s.layers ≠ [] := by
  cases s <;> exact List.cons_ne_nil _ _

open Classical in
theorem target?_of_layer {s t : Statement} (hlayers : s.layers = s :: t.layers)
    (htarget : ∀ outer, s.target? outer = t.target? (s.prepared?.getD outer))
    (ih : ∀ outer, t.target? outer = if t.EndsWithoutQuery then none else some (t.resolved outer))
    (outer : Source) :
    s.target? outer = if s.EndsWithoutQuery then none else some (s.resolved outer) := by
  have hlast : s.layers.getLast? = t.layers.getLast? := by
    obtain ⟨inner, rest, hrest⟩ := List.exists_cons_of_ne_nil t.layers_ne_nil
    rw [hlayers, hrest, List.getLast?_cons_cons]
  have hresolved : s.resolved outer = t.resolved (s.prepared?.getD outer) := by
    rw [resolved, hlayers, List.filterMap_cons]
    cases s.prepared? with
    | none => rfl
    | some source =>
        simp only [List.getLast?_cons]
        rfl
  rw [htarget, ih, hresolved, EndsWithoutQuery, EndsWithoutQuery, hlast]

open Classical in
theorem target?_eq (s : Statement) :
    ∀ outer, s.target? outer = if s.EndsWithoutQuery then none else some (s.resolved outer) := by
  induction s with
  | plain command =>
      intro outer
      simp [target?, EndsWithoutQuery, layers, resolved, prepared?]
  | executeUnknown | utility command =>
      intro outer
      simp [target?, EndsWithoutQuery, layers]
  | explain analyze target ih => exact target?_of_layer rfl (fun _ => rfl) ih
  | declareCursor target ih => exact target?_of_layer rfl (fun _ => rfl) ih
  | createTableAs target ih => exact target?_of_layer rfl (fun _ => rfl) ih
  | execute name source statement ih => exact target?_of_layer rfl (fun _ => rfl) ih

end Statement

namespace Source

/-- Where the statement ends: after its length, but not behind the text. -/
def stop (source : Source) : Nat :=
  match source.length? with
  | some n => min (source.start + n) source.text.utf8ByteSize
  | none => source.text.utf8ByteSize

/-- The text has a piece from the start to the end of the statement. -/
def HasStatement (source : Source) : Prop :=
  ∃ before statement after : String, source.text = before ++ statement ++ after ∧
    before.utf8ByteSize = source.start ∧ (before ++ statement).utf8ByteSize = source.stop

theorem statement?_isSome_iff (source : Source) :
    source.statement?.isSome = true ↔ source.HasStatement := by
  rw [HasStatement, ← slice?_isSome_iff, statement?, stop]
  cases source.length? <;> simp only [length_utf8]

/-- A text has a fingerprint if its literals are known and it has the statement. -/
theorem fingerprint?_eq_none_iff (source : Source) :
    source.fingerprint? = none ↔ source.locations? = none ∨ ¬ source.HasStatement := by
  rw [← statement?_isSome_iff, fingerprint?]
  cases source.locations? with
  | none => simp
  | some locations => cases source.statement? <;> simp

end Source

end Query

namespace Feedback

open Store (Repository)
open Time (Instant)

/-! The outcome. -/

/-- The execution does not qualify: the loop is off, no counts were asked for, there is no query, or
its text tells nothing about literals or does not have the statement. -/
def PassedOver (settings : Settings) (e : Execution) : Prop :=
  settings.enabled = false ∨ (¬ ∃ target, e.statement = .explain true target) ∨
    e.statement.EndsWithoutQuery ∨ (e.statement.resolved e.source).locations? = none ∨
    ¬ (e.statement.resolved e.source).HasStatement

theorem isAnalyzeRequest_iff (s : Query.Statement) :
    s.isAnalyzeRequest = true ↔ ∃ target, s = .explain true target := by
  cases s with
  | explain analyze target => simp [Query.Statement.isAnalyzeRequest]
  | _ => simp [Query.Statement.isAnalyzeRequest]

theorem qualify?_eq_none_iff (settings : Settings) (e : Execution) :
    qualify? settings e = none ↔ PassedOver settings e := by
  rw [qualify?, PassedOver, ← isAnalyzeRequest_iff, ← Query.Source.fingerprint?_eq_none_iff,
    Query.Statement.fingerprint?, Query.Statement.target?_eq]
  by_cases hends : e.statement.EndsWithoutQuery
  · simp [hends]
  · cases settings.enabled <;> cases e.statement.isAnalyzeRequest <;> simp [hends]

/-- Advice is given unless the plan refers to a relation that the range table lacks. -/
theorem advise_error_iff (e : Execution) :
    (∃ bad, advise e = .error bad) ↔ ¬ e.plan.Within e.table.length := by
  rw [← Advice.directives_error_iff, advise]
  cases hid : Advice.planId e.table e.plan.effectiveRoot with
  | ok id => cases Advice.directives e.table e.plan <;> simp [bind, Except.bind, pure, Except.pure]
  | error bad =>
      refine iff_of_true ⟨bad, rfl⟩ (Advice.directives_error_iff.2 fun hwithin => ?_)
      obtain ⟨id, hok⟩ := Advice.exists_planId hwithin.effectiveRoot
      rw [hid] at hok
      cases hok

/-- All that the handling of an execution can come to. -/
theorem process_cases {σ : Type} (r : Repository σ) (settings : Settings) (now : Instant)
    (e : Execution) (s : σ) :
    (PassedOver settings e ∧ process r settings now e s = ⟨.ok none, s, []⟩) ∨
    (¬ PassedOver settings e ∧ ¬ e.plan.Within e.table.length ∧
      ∃ bad, process r settings now e s = ⟨.error (.plan bad), s, []⟩) ∨
    (¬ PassedOver settings e ∧ e.plan.Within e.table.length ∧
      ((∃ error, process r settings now e s = ⟨.error (.storage error), s, []⟩) ∨
        r.ensureSchema s = .ok () ∧
          ((∃ report, (process r settings now e s).result = .ok (some report)) ∨
            ∃ error, (process r settings now e s).result = .error (.storage error)))) := by
  rw [← qualify?_eq_none_iff]
  cases hq : qualify? settings e with
  | none => exact .inl ⟨rfl, process_skipped r now s hq⟩
  | some f =>
      refine .inr ?_
      have hqualifies : ¬ some f = none := Option.some_ne_none f
      cases ha : advise e with
      | error bad =>
          exact .inl ⟨hqualifies, (advise_error_iff e).1 ⟨bad, ha⟩, bad,
            process_bad_index r now s hq ha⟩
      | ok advice =>
          obtain ⟨planId, d⟩ := advice
          have hwithin : e.plan.Within e.table.length := by
            by_contra hnot
            obtain ⟨bad, hbad⟩ := (advise_error_iff e).2 hnot
            rw [ha] at hbad
            cases hbad
          refine .inr ⟨hqualifies, hwithin, ?_⟩
          cases hs : r.ensureSchema s with
          | error error => exact .inl ⟨error, process_schema_error now hq ha hs⟩
          | ok ready =>
              refine .inr ⟨rfl, ?_⟩
              rcases process_steps settings now hq ha hs with
                ⟨report, _, hreport, _⟩ | ⟨_, table, _, hmissing, _⟩
              · exact .inl ⟨report, hreport⟩
              · exact .inr ⟨.schemaMissing table, hmissing⟩

/-- An execution is passed over exactly if it does not qualify. One that qualifies is refused for
its plan exactly if a node at some place of the plan refers to a relation that the range table lacks,
whatever the repository holds. In both cases, and where the tables are not there, the contents stay
as they are. -/
theorem process_passes_over {σ : Type} (r : Repository σ) (settings : Settings) (now : Instant)
    (e : Execution) (s : σ) :
    let outcome := process r settings now e s
    (outcome.result = .ok none ↔ PassedOver settings e) ∧
      (outcome.result = .ok none → outcome.store = s) ∧
      (∀ bad, outcome.result = .error (.plan bad) → outcome.store = s) ∧
      (∀ error, r.ensureSchema s = .error error → outcome.store = s) ∧
      ((∃ bad, outcome.result = .error (.plan bad)) ↔ ¬ PassedOver settings e ∧
        ∃ relation, Plan.Mentions relation e.plan ∧
          (relation = 0 ∨ e.table.length < relation)) := by
  intro outcome
  rw [← Plan.not_within_iff]
  rcases process_cases r settings now e s with ⟨hpassed, houtcome⟩ | ⟨hpassed, hwithin, bad, houtcome⟩ |
    ⟨hpassed, hwithin, ⟨error, houtcome⟩ | ⟨hready, ⟨report, hresult⟩ | ⟨error, hresult⟩⟩⟩
  · simp [outcome, houtcome, hpassed]
  · simp [outcome, houtcome, hpassed, hwithin]
  · simp [outcome, houtcome, hpassed, hwithin]
  · simp [outcome, hresult, hpassed, hwithin, hready]
  · simp [outcome, hresult, hpassed, hwithin, hready]

end Feedback

end PlanFeedback
