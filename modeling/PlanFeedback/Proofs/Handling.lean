import PlanFeedback.Feedback.Loop
import PlanFeedback.Proofs.Memory

/-!
The handling of one execution. Over any repository it ends before the five steps and leaves the
contents alone, or it takes the steps; over a repository in memory the steps tell what the report
says and what the repository holds afterwards.
-/
namespace PlanFeedback.Feedback

open Store (Memory HistoryRecord Repository StorageError TextRecord TextLog mergeRowHints)
open Time (Instant)

def Handling.from {σ α : Type} (h : Handling σ α) (w : Progress σ) : Except Error α × Progress σ :=
  h.run.run w

section Handling

variable {σ α β : Type} {h : Handling σ α} {w w' : Progress σ}

theorem Handling.from_bind {value : α} (f : α → Handling σ β) (hw : h.from w = (.ok value, w')) :
    (h >>= f).from w = (f value).from w' := by
  change (match h.from w with | (a, w') => (ExceptT.bindCont f a : StateM (Progress σ) _) w') = _
  rw [hw]
  rfl

theorem Handling.from_bind_error {e : Error} (f : α → Handling σ β)
    (hw : h.from w = (.error e, w')) : (h >>= f).from w = (.error e, w') := by
  change (match h.from w with | (a, w') => (ExceptT.bindCont f a : StateM (Progress σ) _) w') = _
  rw [hw]
  rfl

theorem from_get_bind (f : Progress σ → Handling σ β) :
    (get >>= f).from w = (f w).from w := rfl

theorem from_pure (result : Except Error α) :
    Handling.from (ExceptT.mk (pure result)) w = (result, w) := rfl

theorem from_say (m : Message) : (say m).from w = (.ok (), { w with log := w.log ++ [m] }) := rfl

theorem from_forM_say (message : String → Message) (lines : List String) :
    ∀ w : Progress σ, (lines.forM fun line => say (message line)).from w =
      (.ok (), { w with log := w.log ++ lines.map message }) := by
  induction lines with
  | nil =>
      intro w
      rw [List.map_nil, List.append_nil]
      rfl
  | cons line lines ih =>
      intro w
      have hline := from_say (w := w) (message line)
      refine (Handling.from_bind _ hline).trans ((ih _).trans ?_)
      simp only [List.map_cons, List.append_assoc, List.singleton_append]

theorem from_persist (step : Step) {operation : σ → Except Store.StorageError (α × σ)}
    {value : α} {store : σ} (h : operation w.store = .ok (value, store)) :
    (persist step operation).from w = (.ok (some value), { w with store }) := by
  rw [persist, from_get_bind, h]
  rfl

theorem from_persist_error (step : Step) {operation : σ → Except StorageError (α × σ)}
    {e : StorageError} (h : operation w.store = .error e)
    (hordinary : e.isInvariantViolation = false) :
    (persist step operation).from w = (.ok none, { w with
      log := w.log ++ [⟨.error, .loop, step.text ++ " 失败: " ++ e.message⟩]
      failures := w.failures ++ [⟨step, e⟩] }) := by
  rw [persist, from_get_bind, h]
  simp only [hordinary]
  rfl

theorem from_persist_missing (step : Step) {operation : σ → Except StorageError (α × σ)}
    {e : StorageError} (h : operation w.store = .error e) (hmissing : e.isInvariantViolation = true) :
    (persist step operation).from w = (.error (.storage e), w) := by
  rw [persist, from_get_bind, h]
  simp only [hmissing]
  rfl

end Handling

/-! Over any repository. -/

def reportMessages (settings : Settings) (report : Report) : List Message :=
  if settings.quiet then []
  else (Text.lines report.render).map fun line => ⟨.info, .report, line⟩

variable {σ : Type} {r : Repository σ} {settings : Settings} {e : Execution} {s : σ}

/-- What the handling comes to is what the loop answers. -/
theorem process_of_handle {now : Instant} {result : Except Error (Option Report)} {w : Progress σ}
    (h : (handle r settings now e).from { store := s } = (result, w)) :
    process r settings now e s = ⟨result, w.store, w.log⟩ :=
  congrArg (fun p : Except Error (Option Report) × Progress σ =>
    (⟨p.1, p.2.store, p.2.log⟩ : Outcome σ (Option Report))) h

theorem process_skipped (r : Repository σ) (now : Instant) (s : σ) (h : qualify? settings e = none) :
    process r settings now e s = ⟨.ok none, s, []⟩ := by
  rw [process, handle, h]
  rfl

theorem process_bad_index {f : Query.Fingerprint} {bad : Plan.BadIndex} (r : Repository σ)
    (now : Instant) (s : σ) (h : qualify? settings e = some f) (ha : advise e = .error bad) :
    process r settings now e s = ⟨.error (.plan bad), s, []⟩ := by
  rw [process, handle, h, ha]
  rfl

theorem from_ensureSchema {w : Progress σ} {result : Except StorageError Unit}
    (h : r.ensureSchema w.store = result) :
    Handling.from (ExceptT.mk (do
      return (r.ensureSchema (← get).store).mapError Error.storage)) w =
        (result.mapError Error.storage, w) := by
  subst h
  rfl

section Advised

variable {f : Query.Fingerprint} {planId : UInt32} {d : Advice.Directives} (now : Instant)
  (hq : qualify? settings e = some f) (ha : advise e = .ok (planId, d))
include hq ha

theorem process_schema_error {error : StorageError} (hs : r.ensureSchema s = .error error) :
    process r settings now e s = ⟨.error (.storage error), s, []⟩ := by
  have hcheck := from_ensureSchema (w := { store := s }) hs
  refine process_of_handle (w := { store := s }) ?_
  rw [handle, hq, ha]
  refine (Handling.from_bind _ (from_pure (.ok (planId, d)))).trans ?_
  exact Handling.from_bind_error _ hcheck

/-- The steps end with a report, which is handed on, whether it goes to the log or not. -/
theorem process_reported (hs : r.ensureSchema s = .ok ()) {report : Report} {w : Progress σ}
    (hsteps : (persistAll r now e f planId d).from { store := s } = (.ok report, w)) :
    process r settings now e s =
      ⟨.ok (some report), w.store, w.log ++ reportMessages settings report⟩ := by
  have hcheck := from_ensureSchema (w := { store := s }) hs
  refine process_of_handle (w := { w with log := w.log ++ reportMessages settings report }) ?_
  rw [handle, hq, ha]
  refine (Handling.from_bind _ (from_pure (.ok (planId, d)))).trans ?_
  refine (Handling.from_bind _ hcheck).trans ?_
  refine (Handling.from_bind _ hsteps).trans ?_
  rw [reportMessages]
  cases settings.quiet with
  | true =>
      rw [if_pos rfl, List.append_nil]
      rfl
  | false =>
      exact Handling.from_bind _
        (from_forM_say (fun line => ⟨.info, .report, line⟩) (Text.lines report.render) w)

theorem process_ended (hs : r.ensureSchema s = .ok ()) {error : Error} {w : Progress σ}
    (hsteps : (persistAll r now e f planId d).from { store := s } = (.error error, w)) :
    process r settings now e s = ⟨.error error, w.store, w.log⟩ := by
  have hcheck := from_ensureSchema (w := { store := s }) hs
  refine process_of_handle ?_
  rw [handle, hq, ha]
  refine (Handling.from_bind _ (from_pure (.ok (planId, d)))).trans ?_
  refine (Handling.from_bind _ hcheck).trans ?_
  exact Handling.from_bind_error _ hsteps

end Advised

/-! Over a repository in memory no step fails. -/

/-- The report on an execution that finds some contents. -/
def memoryReport (m : Memory) (e : Execution) (f : Query.Fingerprint) (planId : UInt32)
    (d : Advice.Directives) : Report where
  fingerprint := f
  planId := planId
  milliseconds := e.milliseconds?.getD 0
  client := e.client
  directives := d
  prior := m.hintText f.normalized e.client
  stored? := some (mergeRowHints (m.hintText f.normalized e.client) d.rows)
  historyId? := some (m.executions.length + 1)
  failures := []

/-- The contents after the five steps. -/
def absorb (m : Memory) (now : Instant) (e : Execution) (f : Query.Fingerprint) (planId : UInt32)
    (d : Advice.Directives) : Memory :=
  let hinted := (m.replaceHint now f.normalized e.client d.rows).2
  let record := HistoryRecord.new f planId (e.milliseconds?.getD 0) d e.client now
  let logged := (hinted.appendHistory record).2
  let noted := (logged.recordText .normalized now f.key f.normalized).2
  (noted.recordText .raw now f.key e.source.text).2

theorem from_persistAll (m : Memory) (now : Instant) (e : Execution) (f : Query.Fingerprint)
    (planId : UInt32) (d : Advice.Directives) :
    (persistAll Memory.repository now e f planId d).from { store := m } =
      (.ok (memoryReport m e f planId d), { store := absorb m now e f planId d }) := by
  rw [persistAll]
  rw [Handling.from_bind _ (from_persist .loadHints rfl)]
  rw [Handling.from_bind _ (from_persist .replaceHints rfl)]
  rw [Handling.from_bind _ (from_persist .appendHistory rfl)]
  rw [Handling.from_bind _ (from_persist .recordNormalized rfl)]
  rw [Handling.from_bind _ (from_persist .recordRaw rfl)]
  rfl

theorem process_memory {m : Memory} (hready : m.ready = true) (settings : Settings) (now : Instant)
    (e : Execution) :
    process Memory.repository settings now e m =
      match qualify? settings e with
      | none => ⟨.ok none, m, []⟩
      | some f =>
        match advise e with
        | .error bad => ⟨.error (.plan bad), m, []⟩
        | .ok (planId, d) =>
          ⟨.ok (some (memoryReport m e f planId d)), absorb m now e f planId d,
            reportMessages settings (memoryReport m e f planId d)⟩ := by
  cases hq : qualify? settings e with
  | none => exact process_skipped _ now m hq
  | some f =>
      cases ha : advise e with
      | error bad => exact process_bad_index _ now m hq ha
      | ok r =>
          obtain ⟨planId, d⟩ := r
          have hschema : Memory.repository.ensureSchema m = .ok () := if_pos hready
          exact process_reported now hq ha hschema (from_persistAll m now e f planId d)

end PlanFeedback.Feedback
