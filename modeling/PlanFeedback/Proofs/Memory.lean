import PlanFeedback.Store.Memory

/-!
What the operations of the repository in memory do to its contents.
-/
namespace PlanFeedback.Store

open Time (Instant)

/-! Merging row hints. -/

/-- The hints that are not empty, with a space between. -/
def joined (rows : List String) : String := " ".intercalate (rows.filter (· ≠ ""))

theorem joined_nil : joined [] = "" := String.intercalate_nil

theorem joined_eq_empty (rows : List String) :
    joined rows = "" ↔ rows.filter (· ≠ "") = [] := by
  rw [joined]
  cases hr : rows.filter (· ≠ "") with
  | nil => simp [String.intercalate_nil]
  | cons r rest =>
      have hne : r ≠ "" := by
        have hmem : r ∈ rows.filter (· ≠ "") := hr ▸ List.mem_cons_self
        simpa using (List.mem_filter.1 hmem).2
      cases rest with
      | nil => simp [String.intercalate_singleton, hne]
      | cons q rest =>
          simp [String.intercalate_cons_cons, String.append_eq_empty_iff, hne]

theorem mergeRowHints_joined (rows : List String) (fresh : String) :
    mergeRowHints (joined rows) fresh = joined (rows ++ [fresh]) := by
  rw [mergeRowHints]
  by_cases hp : joined rows = ""
  · rw [if_pos hp]
    have hnil := (joined_eq_empty rows).1 hp
    rw [joined, List.filter_append, hnil, List.nil_append]
    by_cases hf : fresh = ""
    · subst hf
      rfl
    · simp [hf, String.intercalate_singleton]
  · rw [if_neg hp]
    have hne : rows.filter (· ≠ "") ≠ [] := fun h => hp ((joined_eq_empty rows).2 h)
    by_cases hf : fresh = ""
    · subst hf
      rw [if_pos rfl, joined, joined, List.filter_append]
      simp
    · rw [if_neg hf, joined, joined, List.filter_append]
      have hsingle : [fresh].filter (· ≠ "") = [fresh] := by simp [hf]
      rw [hsingle, String.intercalate_append_of_ne_nil hne (List.cons_ne_nil _ _),
        String.intercalate_singleton]

namespace Memory

/-! Active hints. -/

theorem isFor_iff (normalized client : String) (r : HintRecord) :
    isFor normalized client r = true ↔ r.normalized = normalized ∧ r.client = client := by
  simp only [isFor, Bool.and_eq_true, beq_iff_eq]

theorem find_setHint (normalized client : String) (record : HintRecord) (hs : List HintRecord) :
    (setHint record hs).find? (isFor normalized client) =
      if isFor normalized client record then some record
      else hs.find? (isFor normalized client) := by
  induction hs with
  | nil =>
      rw [setHint, List.find?_cons, List.find?_nil]
      split <;> simp_all
  | cons r hs ih =>
      rw [setHint]
      by_cases hr : isFor record.normalized record.client r
      · rw [if_pos hr, List.find?_cons]
        obtain ⟨h1, h2⟩ := (isFor_iff _ _ r).1 hr
        have hsame : isFor normalized client r = isFor normalized client record := by
          simp only [isFor, h1, h2]
        cases hc : isFor normalized client record with
        | true => rfl
        | false => simp [hsame, hc]
      · rw [if_neg hr, List.find?_cons]
        cases hc : isFor normalized client r with
        | true =>
            obtain ⟨h1, h2⟩ := (isFor_iff _ _ r).1 hc
            have hother : isFor normalized client record = false := by
              rw [Bool.eq_false_iff, Ne, isFor_iff]
              rintro ⟨h3, h4⟩
              exact hr ((isFor_iff _ _ r).2 ⟨h1.trans h3.symm, h2.trans h4.symm⟩)
            simp [hother, hc]
        | false => simp [ih, hc]

/-- Replacing the hints for one query and client changes them and no others. -/
theorem hintText_replaceHint (m : Memory) (now : Instant) (normalized client rows : String)
    (normalized' client' : String) :
    (m.replaceHint now normalized client rows).2.hintText normalized' client' =
      if normalized = normalized' ∧ client = client' then
        mergeRowHints (m.hintText normalized client) rows
      else m.hintText normalized' client' := by
  simp only [replaceHint, hintText, find_setHint, isFor_iff]
  by_cases h : normalized = normalized' ∧ client = client'
  · rw [if_pos h, if_pos h]
  · rw [if_neg h, if_neg h]

/-! The logs. -/

theorem texts_replaceHint (m : Memory) (now : Instant) (normalized client rows : String)
    (log : TextLog) : (m.replaceHint now normalized client rows).2.texts log = m.texts log := by
  cases log <;> rfl

theorem texts_appendHistory (m : Memory) (record : HistoryRecord) (log : TextLog) :
    (m.appendHistory record).2.texts log = m.texts log := by
  cases log <;> rfl

theorem texts_recordText (m : Memory) (log : TextLog) (now : Instant) (queryKey text : String)
    (log' : TextLog) :
    (m.recordText log now queryKey text).2.texts log' =
      if log' = log then m.texts log ++ [⟨(m.texts log).length + 1, queryKey, text, now⟩]
      else m.texts log' := by
  cases log <;> cases log' <;> rfl

theorem executions_recordText (m : Memory) (log : TextLog) (now : Instant)
    (queryKey text : String) :
    (m.recordText log now queryKey text).2.executions = m.executions := by
  cases log <;> rfl

theorem hintText_recordText (m : Memory) (log : TextLog) (now : Instant) (queryKey text : String)
    (normalized client : String) :
    (m.recordText log now queryKey text).2.hintText normalized client =
      m.hintText normalized client := by
  cases log <;> rfl

theorem ready_recordText (m : Memory) (log : TextLog) (now : Instant) (queryKey text : String) :
    (m.recordText log now queryKey text).2.ready = m.ready := by
  cases log <;> rfl

end Memory

end PlanFeedback.Store
