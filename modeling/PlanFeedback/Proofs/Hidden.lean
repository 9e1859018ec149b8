import PlanFeedback.Proofs.Replacement

/-!
Locations that cannot be used. One with no stretch in the text, or whose stretch does not fit, is
never replaced, but where it is shorter than another one with the same start it is the one that is
looked at, and the other one is lost.
-/
namespace PlanFeedback.Query

open Text

/-- Why a location cannot be used: it lies outside the text, it has no length and no token is read
there, it is empty, or an end of it lies inside a character. -/
inductive Location.Unusable (text : Bytes) (l : Location) : Prop
  | outside (h : text.length ≤ l.offset)
  | unread (hlength : l.length? = none) (h : literalLength? (text.drop l.offset) = none)
  | empty (h : l.length? = some 0)
  | cut {s : Stretch} (hname : l.Names text s)
      (h : ¬ (isBoundary text s.start = true ∧ isBoundary text s.stop = true))

/-- A location names a shorter stretch than another one with the same start. -/
def Location.hides (text : Bytes) (e l : Location) : Bool :=
  match e.stretch? text, l.stretch? text with
  | some r, some s => r.start == s.start && r.stop < s.stop
  | _, _ => false

theorem Location.Names.unique {text : Bytes} {l : Location} {r s : Stretch} (hr : l.Names text r)
    (hs : l.Names text s) : r = s := by
  rw [← stretch?_eq_some_iff] at hr hs
  exact Option.some.inj (hr.symm.trans hs)

theorem Location.Unusable.not_fits {text : Bytes} {l : Location} {s : Stretch}
    (h : l.Unusable text) (hname : l.Names text s) : ¬ s.Fits text := by
  intro hfits
  obtain ⟨n, hn, hstop⟩ := hname.stop
  cases h with
  | outside h => exact absurd hname.inside (Nat.not_lt.2 h)
  | unread hlength h =>
      rw [hlength, Option.none_or, h] at hn
      cases hn
  | empty h =>
      rw [h, Option.some_or, Option.some.injEq] at hn
      have := hfits.nonempty
      have := hname.start
      omega
  | cut hname' h =>
      rw [hname'.unique hname] at h
      exact h ⟨hfits.start, hfits.stop⟩

theorem Location.hides_iff {text : Bytes} {e l : Location} : e.hides text l = true ↔
    ∃ r s, e.Names text r ∧ l.Names text s ∧ r.start = s.start ∧ r.stop < s.stop := by
  simp only [← stretch?_eq_some_iff, Location.hides]
  cases e.stretch? text with
  | none => simp
  | some r =>
      cases l.stretch? text with
      | none => simp
      | some s => simp

section

variable {text : Bytes} {locations extra all : List Location}

/-- Where every location is kept or hidden by an unusable one, and no kept one that fits is hidden,
the kept ones have the same fitting stretches in the lead. -/
theorem leads_kept {kept : List Location} (hall : ∀ l, l ∈ all ↔ l ∈ locations ∨ l ∈ extra)
    (hextra : ∀ e ∈ extra, e.Unusable text) (hsub : ∀ l ∈ kept, l ∈ locations)
    (hrest : ∀ l ∈ locations, l ∈ kept ∨ ∃ e ∈ extra, e.hides text l = true)
    (hkept : ∀ l ∈ kept, ¬ l.Unusable text → ∀ e ∈ extra, e.hides text l = false)
    {s : Stretch} (hfits : s.Fits text) : Leads text all s ↔ Leads text kept s := by
  constructor
  · intro h
    obtain ⟨l, hl, hname⟩ := h.named
    refine ⟨⟨l, ?_, hname⟩, fun k hk => h.shortest k ((hall k).2 (Or.inl (hsub k hk)))⟩
    rcases (hall l).1 hl with hl | hl
    · rcases hrest l hl with hin | ⟨e, he, hides⟩
      · exact hin
      · obtain ⟨r, t, hr, ht, hstart, hlt⟩ := Location.hides_iff.1 hides
        obtain rfl := hname.unique ht
        have := h.shortest e ((hall e).2 (Or.inr he)) r hr hstart
        omega
    · exact absurd hfits ((hextra l hl).not_fits hname)
  · intro h
    obtain ⟨l, hl, hname⟩ := h.named
    have hopen : ∀ e ∈ extra, ∀ r, e.Names text r → r.start = s.start → s.stop ≤ r.stop := by
      intro e he r hr hstart
      by_contra hlt
      have hhides := Location.hides_iff.2 ⟨r, s, hr, hname, hstart, Nat.not_le.1 hlt⟩
      rw [hkept l hl (fun hno => hno.not_fits hname hfits) e he] at hhides
      cases hhides
    refine ⟨⟨l, (hall l).2 (Or.inl (hsub l hl)), hname⟩, fun k hk t ht hstart => ?_⟩
    rcases (hall k).1 hk with hk | hk
    · rcases hrest k hk with hin | ⟨e, he, hides⟩
      · exact h.shortest k hin t ht hstart
      · obtain ⟨r, t', hr, ht', hrt, hlt⟩ := Location.hides_iff.1 hides
        obtain rfl := ht.unique ht'
        have := hopen e he r hr (hrt.trans hstart)
        omega
    · exact hopen k hk t ht hstart

end

/-- Unusable locations among others have the effect that those are lost which they hide, so that they
have none where they hide no usable one. -/
theorem normalize_unusable {text : String} {locations extra all : List Location}
    (hall : ∀ l, l ∈ all ↔ l ∈ locations ∨ l ∈ extra)
    (hextra : ∀ e ∈ extra, e.Unusable (utf8 text)) :
    normalize text all = normalize text
        (locations.filter fun l => extra.all fun e => !e.hides (utf8 text) l) ∧
      ((∀ l ∈ locations, ¬ l.Unusable (utf8 text) → ∀ e ∈ extra, e.hides (utf8 text) l = false) →
        normalize text all = normalize text locations ∧
          (Source.new text all).fingerprint? = (Source.new text locations).fingerprint?) := by
  constructor
  · apply normalize_congr
    intro s
    apply leads_kept hall hextra
    · exact fun l hl => (List.mem_filter.1 hl).1
    · intro l hl
      rw [List.mem_filter, List.all_eq_true]
      by_cases hides : ∃ e ∈ extra, e.hides (utf8 text) l = true
      · exact Or.inr hides
      · refine Or.inl ⟨hl, fun e he => ?_⟩
        rw [Bool.not_eq_true']
        exact Bool.eq_false_iff.2 fun h => hides ⟨e, he, h⟩
    · intro l hl _ e he
      have hnot := List.all_eq_true.1 (List.mem_filter.1 hl).2 e he
      rwa [Bool.not_eq_true'] at hnot
  · intro hshown
    have hnormal : normalize text all = normalize text locations := by
      apply normalize_congr
      intro s
      exact leads_kept hall hextra (fun l hl => hl) (fun l hl => Or.inl hl) hshown
    exact ⟨hnormal, by rw [fingerprint_new, fingerprint_new, hnormal]⟩

/-- One behind the end of the text, one that is empty and one with an end inside a character. -/
theorem normalize_unusable_apart :
    (∀ e ∈ [Location.span 20 1, .span 9 0, .span 11 1], e.Unusable (utf8 "SELECT 1, 'é'")) ∧
      normalize "SELECT 1, 'é'" [.span 20 1, .token 10, .span 9 0, .span 7 1, .span 11 1] =
        normalize "SELECT 1, 'é'" [.token 10, .span 7 1] := by
  have hextra : ∀ e ∈ [Location.span 20 1, .span 9 0, .span 11 1],
      e.Unusable (utf8 "SELECT 1, 'é'") := by
    simp only [List.forall_mem_cons, List.not_mem_nil, false_implies, implies_true, and_true]
    refine ⟨.outside (by decide), .empty rfl, .cut (s := ⟨11, 12⟩) ?_ (by decide)⟩
    exact ⟨rfl, by decide, 1, rfl, rfl⟩
  have hshown : ∀ l ∈ [Location.token 10, .span 7 1], ¬ l.Unusable (utf8 "SELECT 1, 'é'") →
      ∀ e ∈ [Location.span 20 1, .span 9 0, .span 11 1],
        e.hides (utf8 "SELECT 1, 'é'") l = false := by
    have hpairs : ∀ l ∈ [Location.token 10, .span 7 1],
        ∀ e ∈ [Location.span 20 1, .span 9 0, .span 11 1],
          e.hides (utf8 "SELECT 1, 'é'") l = false := by decide +kernel
    exact fun l hl _ => hpairs l hl
  have hall : ∀ l, l ∈ [Location.span 20 1, .token 10, .span 9 0, .span 7 1, .span 11 1] ↔
      l ∈ [Location.token 10, .span 7 1] ∨ l ∈ [Location.span 20 1, .span 9 0, .span 11 1] := by
    intro l
    simp only [List.mem_cons, List.not_mem_nil, or_false]
    tauto
  have hsame := (normalize_unusable hall hextra).2 hshown
  exact ⟨hextra, hsame.1⟩

/-- Of two locations with one start the shorter one cannot be used and hides the other one. -/
theorem normalize_hidden :
    (Location.span 7 2).Unusable (utf8 "SELECT 'é'") ∧
      normalize "SELECT 'é'" [.span 7 4] = "SELECT ?" ∧
      normalize "SELECT 'é'" [.span 7 2, .span 7 4] = "SELECT 'é'" := by
  refine ⟨.cut (s := ⟨7, 9⟩) ⟨rfl, by decide, 2, rfl, rfl⟩ (by decide), ?_, ?_⟩
  · decide +kernel
  · have hstretches : [Location.span 7 2, .span 7 4].filterMap
        (Location.stretch? (utf8 "SELECT 'é'")) = [⟨7, 9⟩, ⟨7, 11⟩] := by decide
    have hnone : replacedStretches (utf8 "SELECT 'é'") [.span 7 2, .span 7 4] = [] := by
      rw [replacedStretches, hstretches, List.mergeSort_of_pairwise (by decide)]
      decide
    rw [normalize, normalizeBytes, hnone]
    exact ofUtf8_utf8 _

end PlanFeedback.Query
