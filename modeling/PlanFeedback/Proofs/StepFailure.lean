import PlanFeedback.Proofs.Handling
import PlanFeedback.Proofs.Request
import PlanFeedback.Store.Fault

/-!
Steps that fail. Over any repository an ordinary error spoils its own step and no other: what the
other steps ask and what becomes of it is the same, and the report lists the errors. A missing table
ends the handling at its step.
-/
namespace PlanFeedback.Store

open Time (Instant)

def Request.call : Request → Call
  | .ensureSchema => .ensureSchema
  | .load .. => .load
  | .replace .. => .replace
  | .appendHistory _ => .history
  | .recordText log .. => log.call
  | .history _ | .texts .. => .list

theorem Faults.guard_map {α β : Type} (faults : Faults) (call : Call)
    (operation : Except StorageError α) (f : α → β) :
    (faults.guard call operation).map f = faults.guard call (operation.map f) := by
  rw [guard, guard]
  cases faults call <;> rfl

/-- With faults a request is answered as without, or it fails with the fault of its operation. -/
theorem Request.ask_withFaults {σ : Type} (r : Repository σ) (faults : Faults) (now : Instant)
    (s : σ) (q : Request) :
    q.ask (r.withFaults faults) now s = faults.guard q.call (q.ask r now s) := by
  cases q <;> exact faults.guard_map ..

theorem ensureSchema_of_withFaults {σ : Type} {r : Repository σ} {faults : Faults} {s : σ}
    (h : (r.withFaults faults).ensureSchema s = .ok ()) : r.ensureSchema s = .ok () := by
  change faults.guard .ensureSchema (r.ensureSchema s) = .ok () at h
  rw [Faults.guard] at h
  cases hfault : faults .ensureSchema with
  | some fault => simp [hfault] at h
  | none => simpa [hfault] using h

end PlanFeedback.Store

namespace PlanFeedback.Feedback

open Store (Answer Faults HistoryRecord Memory Repository Request StorageError)
open Time (Instant)

namespace Step

def all : List Step := [loadHints, replaceHints, appendHistory, recordNormalized, recordRaw]

def writes : List Step := [replaceHints, appendHistory, recordNormalized, recordRaw]

def before (step : Step) : List Step := all.takeWhile (· ≠ step)

/-- What a step asks of the repository about an execution. No answer to another step enters it. -/
def request (now : Instant) (e : Execution) (f : Query.Fingerprint) (planId : UInt32)
    (d : Advice.Directives) : Step → Request
  | loadHints => .load f.normalized e.client
  | replaceHints => .replace f.normalized e.client d.rows
  | appendHistory =>
    .appendHistory (HistoryRecord.new f planId (e.milliseconds?.getD 0) d e.client now)
  | recordNormalized => .recordText .normalized f.key f.normalized
  | recordRaw => .recordText .raw f.key e.source.text

/-- What holds of no steps, and of the steps up to one if of the steps before it, holds of the steps
before each one and of all steps. -/
theorem before_induction {P : List Step → Prop} (nil : P [])
    (concat : ∀ step : Step, P step.before → P (step.before ++ [step])) :
    (∀ step : Step, P step.before) ∧ P all := by
  have h1 : P replaceHints.before := concat loadHints nil
  have h2 : P appendHistory.before := concat replaceHints h1
  have h3 : P recordNormalized.before := concat appendHistory h2
  have h4 : P recordRaw.before := concat recordNormalized h3
  refine ⟨fun step => ?_, concat recordRaw h4⟩
  cases step with
  | loadHints => exact nil
  | replaceHints => exact h1
  | appendHistory => exact h2
  | recordNormalized => exact h3
  | recordRaw => exact h4

theorem mem_all (step : Step) : step ∈ all := by cases step <;> decide

theorem mem_before_or (a b : Step) : a ∈ b.before ∨ a = b ∨ b ∈ a.before := by
  cases a <;> cases b <;> decide

end Step

section Steps

variable {σ : Type} (r : Repository σ) (now : Instant) (asks : Step → Request)

/-- The contents after some steps. A step that fails leaves them as they are. -/
def afterSteps (steps : List Step) (s : σ) : σ :=
  steps.foldl (fun s step => ((asks step).answer r now s).2) s

/-- The error of a step that is taken after all before it, if it fails then. -/
def failure? (s : σ) (step : Step) : Option StorageError :=
  match (asks step).ask r now (afterSteps r now asks step.before s) with
  | .ok _ => none
  | .error error => some error

/-- Some steps from the first on have been taken. -/
structure Taken (s : σ) (steps : List Step) (w : Progress σ) : Prop where
  store : w.store = afterSteps r now asks steps s
  failures : w.failures =
    steps.filterMap fun step => (failure? r now asks s step).map (Failure.mk step)
  ordinary : ∀ step ∈ steps, ∀ table, failure? r now asks s step ≠ some (.schemaMissing table)

/-- A step has met a missing table, and the steps before it have been taken. -/
def EndedAt (s : σ) (error : Error) (w : Progress σ) : Prop :=
  ∃ step table, error = .storage (.schemaMissing table) ∧
    failure? r now asks s step = some (.schemaMissing table) ∧
    Taken r now asks s step.before w

end Steps

/-- From some progress a handling ends with a value and progress of the one property, or with an
error and progress of the other. -/
def Handling.Ends {σ α : Type} (h : Handling σ α) (w : Progress σ) (Q : α → Progress σ → Prop)
    (E : Error → Progress σ → Prop) : Prop :=
  match h.from w with
  | (.ok value, w') => Q value w'
  | (.error error, w') => E error w'

theorem Handling.Ends.bind {σ α β : Type} {h : Handling σ α} {f : α → Handling σ β}
    {w : Progress σ} {Q : α → Progress σ → Prop} {R : β → Progress σ → Prop}
    {E : Error → Progress σ → Prop} (hh : h.Ends w Q E)
    (hf : ∀ value w', Q value w' → (f value).Ends w' R E) : (h >>= f).Ends w R E := by
  rw [Ends] at hh ⊢
  cases hfrom : h.from w with
  | mk result w' =>
      rw [hfrom] at hh
      cases result with
      | ok value =>
          rw [Handling.from_bind f hfrom]
          exact hf value w' hh
      | error error =>
          rw [Handling.from_bind_error f hfrom]
          exact hh

section Steps

variable {σ : Type} {r : Repository σ} {now : Instant} {asks : Step → Request} {s : σ}

theorem taken_nil (s : σ) : Taken r now asks s [] { store := s } := ⟨rfl, rfl, by simp⟩

theorem afterSteps_concat (steps : List Step) (step : Step) :
    afterSteps r now asks (steps ++ [step]) s =
      ((asks step).answer r now (afterSteps r now asks steps s)).2 := by
  rw [afterSteps, List.foldl_append]
  rfl

theorem Taken.concat {step : Step} {w w' : Progress σ} (h : Taken r now asks s step.before w)
    (hstore : w'.store = ((asks step).answer r now w.store).2)
    (hfailures : w'.failures =
      w.failures ++ ((failure? r now asks s step).map (Failure.mk step)).toList)
    (hordinary : ∀ table, failure? r now asks s step ≠ some (.schemaMissing table)) :
    Taken r now asks s (step.before ++ [step]) w' where
  store := by rw [hstore, h.store, afterSteps_concat]
  failures := by
    rw [hfailures, h.failures, List.filterMap_append, List.filterMap_cons]
    cases failure? r now asks s step <;> rfl
  ordinary := by
    intro step' hstep'
    rcases List.mem_append.1 hstep' with hbefore | hlast
    · exact h.ordinary step' hbefore
    · rw [List.mem_singleton.1 hlast]
      exact hordinary

/-- A step is taken after the ones before it, or it meets a missing table. -/
theorem Taken.persist {α : Type} (step : Step) {w : Progress σ}
    (h : Taken r now asks s step.before w) {operation : σ → Except StorageError (α × σ)}
    {answer : α → Answer}
    (hask : ∀ s, (asks step).ask r now s = (operation s).map fun p => (answer p.1, p.2)) :
    (Feedback.persist step operation).Ends w
      (fun value? w' => Taken r now asks s (step.before ++ [step]) w' ∧
        value? = (operation (afterSteps r now asks step.before s)).toOption.map Prod.fst)
      (EndedAt r now asks s) := by
  have hasked := hask w.store
  have hfailure : failure? r now asks s step =
      match operation w.store with
      | .ok _ => none
      | .error error => some error := by
    rw [failure?, ← h.store, hasked]
    cases operation w.store <;> rfl
  rw [Handling.Ends, ← h.store]
  cases hop : operation w.store with
  | ok p =>
      obtain ⟨value, s'⟩ := p
      rw [hop] at hasked hfailure
      rw [from_persist step hop]
      refine ⟨h.concat ?_ ?_ ?_, rfl⟩
      · rw [Request.answer, hasked]
        rfl
      · simp [hfailure]
      · simp [hfailure]
  | error error =>
      rw [hop] at hasked hfailure
      cases hkind : error.isInvariantViolation with
      | true =>
          rw [from_persist_missing step hop hkind]
          cases error with
          | schemaMissing table => exact ⟨step, table, rfl, hfailure, h⟩
          | database | serialization => cases hkind
      | false =>
          rw [from_persist_error step hop hkind]
          refine ⟨h.concat ?_ ?_ ?_, rfl⟩
          · rw [Request.answer, hasked]
            rfl
          · simp [hfailure]
          · rintro table htable
            rw [hfailure, Option.some.injEq] at htable
            rw [htable] at hkind
            cases hkind

/-- A step fails just if its operation gives no value. -/
theorem failure?_ne_none_iff {α : Type} (s : σ) (step : Step)
    {operation : σ → Except StorageError (α × σ)} {answer : α → Answer}
    (hask : ∀ s, (asks step).ask r now s = (operation s).map fun p => (answer p.1, p.2)) :
    failure? r now asks s step ≠ none ↔
      (operation (afterSteps r now asks step.before s)).toOption.map Prod.fst = none := by
  rw [failure?, hask]
  cases operation (afterSteps r now asks step.before s) with
  | ok p => simp [Except.map, Except.toOption]
  | error error => simp [Except.map, Except.toOption]

end Steps

/-- What a report says about steps of which some may have failed. -/
structure Report.Accounts {σ : Type} (report : Report) (r : Repository σ) (e : Execution) (s : σ)
    (fails : Step → Option StorageError) : Prop where
  failures : report.failures = Step.all.filterMap fun step => (fails step).map (Failure.mk step)
  prior_failed : fails .loadHints ≠ none → report.prior = ""
  prior_loaded : fails .loadHints = none →
    r.load report.fingerprint.normalized e.client s = .ok report.prior
  stored : report.stored? = none ↔ fails .replaceHints ≠ none
  historyId : report.historyId? = none ↔ fails .appendHistory ≠ none

/-- The steps together: a report on all of them, or a missing table at one. -/
theorem ends_persistAll {σ : Type} (r : Repository σ) (now : Instant) (e : Execution)
    (f : Query.Fingerprint) (planId : UInt32) (d : Advice.Directives) (s : σ) :
    (persistAll r now e f planId d).Ends { store := s }
      (fun report w => Taken r now (Step.request now e f planId d) s Step.all w ∧
        (report.fingerprint = f ∧ report.planId = planId ∧ report.directives = d) ∧
        report.Accounts r e s (failure? r now (Step.request now e f planId d) s))
      (EndedAt r now (Step.request now e f planId d) s) := by
  rw [persistAll]
  have hload : ∀ s, (Step.request now e f planId d .loadHints).ask r now s =
      (looking (r.load f.normalized e.client) s).map fun p => (Answer.hints p.1, p.2) := by
    intro s
    rw [looking]
    change (r.load f.normalized e.client s).map _ = _
    cases r.load f.normalized e.client s <;> rfl
  refine ((taken_nil s).persist .loadHints hload).bind fun prior? w1 hloaded => ?_
  obtain ⟨h1, hprior⟩ := hloaded
  refine (h1.persist .replaceHints fun _ => rfl).bind fun stored? w2 hreplaced => ?_
  obtain ⟨h2, hstored⟩ := hreplaced
  refine (h2.persist .appendHistory fun _ => rfl).bind fun id? w3 happended => ?_
  obtain ⟨h3, hid⟩ := happended
  refine (h3.persist .recordNormalized fun _ => rfl).bind fun _ w4 hnormalized => ?_
  refine (hnormalized.1.persist .recordRaw fun _ => rfl).bind fun _ w5 hraw => ?_
  have h5 := hraw.1
  have hfailed := failure?_ne_none_iff s .loadHints hload
  rw [← hprior] at hfailed
  refine ⟨h5, ⟨rfl, rfl, rfl⟩, ?_⟩
  refine ⟨h5.failures, fun hne => ?_, fun hnone => ?_, ?_, ?_⟩
  · exact congrArg (Option.getD · "") (hfailed.1 hne)
  · change r.load f.normalized e.client s = .ok (prior?.getD "")
    have hlooked : prior? = (looking (r.load f.normalized e.client) s).toOption.map Prod.fst := hprior
    cases hanswer : r.load f.normalized e.client s with
    | ok text =>
        rw [looking, hanswer] at hlooked
        rw [hlooked]
        rfl
    | error error =>
        rw [looking, hanswer] at hlooked
        exact absurd hnone (hfailed.2 hlooked)
  · exact (hstored ▸ failure?_ne_none_iff s .replaceHints fun _ => rfl).symm
  · exact (hid ▸ failure?_ne_none_iff s .appendHistory fun _ => rfl).symm

/-! Faults. -/

def spared (fails : Step → Option StorageError) (steps : List Step) : List Step :=
  steps.filter fun step => (fails step).isNone

theorem spared_concat (fails : Step → Option StorageError) (steps : List Step) (step : Step) :
    spared fails (steps ++ [step]) =
      spared fails steps ++ if (fails step).isNone then [step] else [] := by
  rw [spared, List.filter_append, List.filter_cons, List.filter_nil]
  rfl

section Faults

variable {σ : Type} (r : Repository σ) (faults : Faults) (now : Instant) (asks : Step → Request)
  (s : σ)

/-- The faults change nothing but that the steps that fail are left out. -/
theorem afterSteps_withFaults :
    (∀ step : Step, afterSteps (r.withFaults faults) now asks step.before s =
        afterSteps r now asks (spared (failure? (r.withFaults faults) now asks s) step.before) s) ∧
      afterSteps (r.withFaults faults) now asks Step.all s =
        afterSteps r now asks (spared (failure? (r.withFaults faults) now asks s) Step.all) s := by
  apply Step.before_induction
    (P := fun steps => afterSteps (r.withFaults faults) now asks steps s =
      afterSteps r now asks (spared (failure? (r.withFaults faults) now asks s) steps) s) rfl
  intro step ih
  rw [afterSteps_concat, spared_concat]
  cases hfails : failure? (r.withFaults faults) now asks s step with
  | some error =>
      rw [if_neg (by simp), List.append_nil, ← ih, Request.answer]
      rw [failure?] at hfails
      cases hask : (asks step).ask (r.withFaults faults) now
          (afterSteps (r.withFaults faults) now asks step.before s) with
      | ok p => simp [hask] at hfails
      | error error => rfl
  | none =>
      rw [if_pos Option.isNone_none, afterSteps_concat, ← ih, Request.answer, Request.answer,
        Request.ask_withFaults]
      rw [failure?, Request.ask_withFaults, Faults.guard] at hfails
      rw [Faults.guard]
      cases hfault : faults (asks step).call with
      | some error => simp [hfault] at hfails
      | none => rfl

/-- A step fails with its fault, or if there is none as it does by itself after the others. -/
theorem failure?_withFaults_iff (step : Step) (error : StorageError) :
    failure? (r.withFaults faults) now asks s step = some error ↔
      faults (asks step).call = some error ∨ faults (asks step).call = none ∧
        (asks step).ask r now (afterSteps r now asks
          (spared (failure? (r.withFaults faults) now asks s) step.before) s) = .error error := by
  rw [failure?, (afterSteps_withFaults r faults now asks s).1, Request.ask_withFaults, Faults.guard]
  cases faults (asks step).call with
  | some fault => simp
  | none =>
      cases (asks step).ask r now (afterSteps r now asks
        (spared (failure? (r.withFaults faults) now asks s) step.before) s) <;> simp

end Faults

section Isolation

variable {σ : Type} {r : Repository σ} {now : Instant} {settings : Settings} {e : Execution} {s : σ}
  {f : Query.Fingerprint} {planId : UInt32} {d : Advice.Directives}

theorem afterSteps_spared_all (fails : Step → Option StorageError) :
    afterSteps r now (Step.request now e f planId d) (spared fails Step.all) s =
      afterSteps r now (Step.request now e f planId d) (spared fails Step.writes) s := by
  have hload : ((Step.request now e f planId d .loadHints).answer r now s).2 = s := by
    simp only [Step.request, Request.answer, Request.ask]
    cases r.load f.normalized e.client s <;> rfl
  rw [Step.all, spared, List.filter_cons]
  split
  · exact congrArg (afterSteps r now _ (spared fails Step.writes)) hload
  · rfl

/-- The handling of an advised execution, of which it is known what the steps come to. -/
theorem process_steps (settings : Settings) (now : Instant) (hq : qualify? settings e = some f)
    (ha : advise e = .ok (planId, d)) (hs : r.ensureSchema s = .ok ()) :
    (∃ report w, (process r settings now e s).result = .ok (some report) ∧
      (process r settings now e s).store = w.store ∧
      Taken r now (Step.request now e f planId d) s Step.all w ∧
      (report.fingerprint = f ∧ report.planId = planId ∧ report.directives = d) ∧
      report.Accounts r e s (failure? r now (Step.request now e f planId d) s)) ∨
    ∃ step table w, (process r settings now e s).result = .error (.storage (.schemaMissing table)) ∧
      (process r settings now e s).store = w.store ∧
      failure? r now (Step.request now e f planId d) s step = some (.schemaMissing table) ∧
      Taken r now (Step.request now e f planId d) s step.before w := by
  have hends := ends_persistAll r now e f planId d s
  rw [Handling.Ends] at hends
  cases hsteps : (persistAll r now e f planId d).from { store := s } with
  | mk result w =>
      rw [hsteps] at hends
      cases result with
      | ok report =>
          rw [process_reported now hq ha hs hsteps]
          exact .inl ⟨report, w, rfl, rfl, hends⟩
      | error error =>
          obtain ⟨step, table, rfl, hfail, htaken⟩ := hends
          rw [process_ended now hq ha hs hsteps]
          exact .inr ⟨step, table, w, rfl, rfl, hfail, htaken⟩

/-- Isolation of failures. A step fails with its fault, or as it does by itself. Ordinary failures
are listed in the report, and the steps that write and do not fail do what they do where nothing
fails; the first missing table ends the handling there. -/
theorem process_isolates (r : Repository σ) (faults : Faults) (settings : Settings) (now : Instant)
    {e : Execution} {s : σ} (hq : qualify? settings e = some f) (ha : advise e = .ok (planId, d))
    (hs : (r.withFaults faults).ensureSchema s = .ok ()) :
    let asks := Step.request now e f planId d
    let fails := failure? (r.withFaults faults) now asks s
    let outcome := process (r.withFaults faults) settings now e s
    (∀ step error, fails step = some error ↔ faults (asks step).call = some error ∨
      faults (asks step).call = none ∧
        (asks step).ask r now (afterSteps r now asks (spared fails step.before) s) =
          .error error) ∧
    ((∀ step table, fails step ≠ some (.schemaMissing table)) →
      ∃ report, outcome.result = .ok (some report) ∧
        outcome.store = afterSteps r now asks (spared fails Step.writes) s ∧
        (report.fingerprint = f ∧ report.planId = planId ∧ report.directives = d) ∧
        report.Accounts (r.withFaults faults) e s fails) ∧
    (∀ step table, fails step = some (.schemaMissing table) →
      (∀ earlier ∈ step.before, ∀ table, fails earlier ≠ some (.schemaMissing table)) →
      outcome.result = .error (.storage (.schemaMissing table)) ∧
        outcome.store = afterSteps r now asks (spared fails step.before) s) ∧
    ∀ report, (process r settings now e s).result = .ok (some report) →
      (process r settings now e s).store = afterSteps r now asks Step.writes s ∧
        report.fingerprint = f ∧ report.planId = planId ∧ report.directives = d := by
  intro asks fails outcome
  have hafter := afterSteps_withFaults r faults now asks s
  refine ⟨failure?_withFaults_iff r faults now asks s, fun hordinary => ?_,
    fun step table hstep hfirst => ?_, fun report hresult => ?_⟩
  · rcases process_steps settings now hq ha hs with
      ⟨report, w, hresult, hstore, htaken, hfields, haccounts⟩ | ⟨step, table, w, _, _, hfail, _⟩
    · refine ⟨report, hresult, ?_, hfields, haccounts⟩
      rw [← afterSteps_spared_all, ← hafter.2]
      exact hstore.trans htaken.store
    · exact absurd hfail (hordinary step table)
  · rcases process_steps settings now hq ha hs with
      ⟨_, _, _, _, htaken, _⟩ | ⟨step', table', w, hresult, hstore, hfail, htaken⟩
    · exact absurd hstep (htaken.ordinary step step.mem_all table)
    · obtain rfl : step' = step := by
        rcases step'.mem_before_or step with hmem | heq | hmem
        · exact absurd hfail (hfirst step' hmem table')
        · exact heq
        · exact absurd hstep (htaken.ordinary step hmem table)
      have htable := hstep.symm.trans hfail
      rw [Option.some.injEq, StorageError.schemaMissing.injEq] at htable
      rw [htable]
      refine ⟨hresult, ?_⟩
      rw [← hafter.1]
      exact hstore.trans htaken.store
  · rcases process_steps settings now hq ha (Store.ensureSchema_of_withFaults hs) with
      ⟨report', w, hresult', hstore, htaken, hfields, haccounts⟩ | ⟨_, _, _, hresult', _⟩
    · obtain rfl : report' = report := by simpa [hresult] using hresult'.symm
      refine ⟨?_, hfields⟩
      exact hstore.trans (htaken.store.trans (afterSteps_spared_all fun _ => none))
    · simp [hresult] at hresult'

/-- An execution whose hints cannot be loaded and whose normalised text cannot be noted. -/
def selecting : Execution where
  source := .new "EXPLAIN ANALYZE SELECT * FROM t" []
  statement := .explainAnalyze (.plain .select)
  table := [.ofRelation "t"]
  plan := (Plan.scan .seq 1 1000).withActual 7
  client := "psql"

def twoFaults : Faults := .ofList [(.load, .database "locked"), (.normalized, .serialization "nan")]

theorem process_isolates_selecting :
    ∃ f planId d, qualify? {} selecting = some f ∧ advise selecting = .ok (planId, d) ∧
      (Memory.repository.withFaults twoFaults).ensureSchema {} = .ok () ∧
      ∃ report, (process (Memory.repository.withFaults twoFaults) {} ⟨20000, 3600, 0⟩ selecting
          {}).result = .ok (some report) ∧
        report.failures =
          [⟨.loadHints, .database "locked"⟩, ⟨.recordNormalized, .serialization "nan"⟩] ∧
        report.prior = "" ∧ report.historyId? ≠ none := by
  have hqualify : (qualify? {} selecting).isSome = true := by decide +kernel
  have hadvise : (advise selecting).toBool = true := by decide +kernel
  obtain ⟨f, hq⟩ := Option.isSome_iff_exists.1 hqualify
  cases ha : advise selecting with
  | error bad => simp [ha, Except.toBool] at hadvise
  | ok p =>
      obtain ⟨planId, d⟩ := p
      obtain ⟨_, hreport, _⟩ :=
        process_isolates Memory.repository twoFaults {} ⟨20000, 3600, 0⟩ (s := {}) hq ha rfl
      have hordinary : ∀ step table, failure? (Memory.repository.withFaults twoFaults)
          ⟨20000, 3600, 0⟩ (Step.request ⟨20000, 3600, 0⟩ selecting f planId d) {} step ≠
            some (.schemaMissing table) := by
        intro step table h
        cases step <;> cases h
      obtain ⟨report, hresult, _, _, haccounts⟩ := hreport hordinary
      refine ⟨f, planId, d, hq, rfl, rfl, report, hresult, haccounts.failures,
        haccounts.prior_failed ?_, mt haccounts.historyId.1 (not_not_intro rfl)⟩
      exact Option.some_ne_none _

end Isolation

end PlanFeedback.Feedback
