import Mathlib.Data.List.Sort
import PlanFeedback.Proofs.Indexed
import PlanFeedback.Proofs.TokenRun

/-!
The normal form under arbitrary locations, in range or not, repeated, overlapping or inside a
character. Pieces of the text are replaced, each named by a location, and of the stretches that
could be replaced only those are left that begin inside another one or are longer than another one
with the same start.
-/
namespace PlanFeedback.Query

open Text

/-- A text where some stretches, apart and in order, are each replaced by one question mark and
everything else is kept. The text begins at `position` of a longer one, in which the stretches are
counted. -/
inductive Replaced : (position : Nat) → (text : String) → List Stretch → String → Prop
  | kept (position : Nat) (rest : String) : Replaced position rest [] rest
  | replaced {position : Nat} (kept : String) {gone rest out : String} {ss : List Stretch}
      (hgone : gone ≠ "") (h : Replaced (position + (kept ++ gone).utf8ByteSize) rest ss out) :
      Replaced position (kept ++ gone ++ rest)
        (⟨position + kept.utf8ByteSize, position + (kept ++ gone).utf8ByteSize⟩ :: ss)
        (kept ++ "?" ++ out)

/-- A location inside the text names the stretch of the given length, or of the token that is read
there, cut at the end of the text. -/
structure Location.Names (text : Bytes) (l : Location) (s : Stretch) : Prop where
  start : s.start = l.offset
  inside : l.offset < text.length
  stop : ∃ n, l.length?.or (literalLength? (text.drop l.offset)) = some n ∧
    s.stop = min (l.offset + n) text.length

/-- A stretch that is not empty and made of whole characters. -/
structure Stretch.Fits (text : Bytes) (s : Stretch) : Prop where
  nonempty : s.start < s.stop
  start : isBoundary text s.start = true
  stop : isBoundary text s.stop = true

/-- A stretch that is named, and no shorter one with the same start is. -/
structure Leads (text : Bytes) (locations : List Location) (s : Stretch) : Prop where
  named : ∃ l ∈ locations, l.Names text s
  shortest : ∀ l ∈ locations, ∀ r, l.Names text r → r.start = s.start → s.stop ≤ r.stop

theorem Stretch.fits_iff {text : Bytes} {s : Stretch} : s.Fits text ↔
    s.start < s.stop ∧ isBoundary text s.start = true ∧ isBoundary text s.stop = true :=
  ⟨fun h => ⟨h.nonempty, h.start, h.stop⟩, fun h => ⟨h.1, h.2.1, h.2.2⟩⟩

theorem Leads.of_mem {text : Bytes} {locations locations' : List Location} {s : Stretch}
    (h : Leads text locations s) (hsame : ∀ l, l ∈ locations ↔ l ∈ locations') :
    Leads text locations' s := by
  obtain ⟨l, hl, hname⟩ := h.named
  exact ⟨⟨l, (hsame l).1 hl, hname⟩, fun l hl => h.shortest l ((hsame l).2 hl)⟩

instance (text : Bytes) (s : Stretch) : Decidable (s.Fits text) :=
  decidable_of_iff _ Stretch.fits_iff.symm

theorem stretch?_eq_some_iff {text : Bytes} {l : Location} {s : Stretch} :
    l.stretch? text = some s ↔ l.Names text s := by
  rw [Location.stretch?]
  constructor
  · intro h
    split at h
    · rename_i hinside
      obtain ⟨n, hn, rfl⟩ := Option.map_eq_some_iff.1 h
      exact ⟨rfl, hinside, n, hn, rfl⟩
    · cases h
  · rintro ⟨hstart, hinside, n, hn, hstop⟩
    rw [if_pos hinside, hn, Option.map_some, ← hstop, ← hstart]

/-! Sorting and dropping repeats. -/

theorem Stretch.precedes_iff {r s : Stretch} :
    r.precedes s = true ↔ r.start < s.start ∨ r.start = s.start ∧ r.stop ≤ s.stop := by
  simp only [Stretch.precedes, Bool.or_eq_true, Bool.and_eq_true, decide_eq_true_eq, beq_iff_eq]

theorem pairwise_precedes (ss : List Stretch) :
    (ss.mergeSort Stretch.precedes).Pairwise fun r s => r.precedes s = true := by
  apply List.pairwise_mergeSort
  · intro a b c
    simp only [Stretch.precedes_iff]
    omega
  · intro a b
    simp only [Bool.or_eq_true, Stretch.precedes_iff]
    omega

theorem dropRepeats_cons {s : Stretch} {ss : List Stretch}
    (h : (dropRepeats ss).Pairwise fun r s => r.start < s.start)
    (hle : ∀ r ∈ dropRepeats ss, s.start ≤ r.start) :
    dropRepeats (s :: ss) = s :: (dropRepeats ss).filter fun r => s.start < r.start := by
  rw [dropRepeats]
  generalize dropRepeats ss = rs at h hle
  cases rs with
  | nil => rfl
  | cons r rs =>
      have hrest : ∀ t ∈ rs, s.start < t.start := by
        intro t ht
        exact Nat.lt_of_le_of_lt (hle r List.mem_cons_self) (List.rel_of_pairwise_cons h ht)
      have hkeep : (rs.filter fun t => s.start < t.start) = rs :=
        List.filter_eq_self.2 fun t ht => decide_eq_true (hrest t ht)
      change (if s.start = r.start then s :: rs else s :: r :: rs) = _
      rw [List.filter_cons, hkeep]
      by_cases heq : s.start = r.start
      · rw [if_pos heq, if_neg (by simp [heq])]
      · have hlt : s.start < r.start := Nat.lt_of_le_of_ne (hle r List.mem_cons_self) heq
        rw [if_neg heq, if_pos (decide_eq_true hlt)]

/-- Of sorted stretches the shortest with each start are left, in order. -/
theorem dropRepeats_sorted {ss : List Stretch}
    (h : ss.Pairwise fun r s => r.precedes s = true) :
    (dropRepeats ss).Pairwise (fun r s => r.start < s.start) ∧
      ∀ s, s ∈ dropRepeats ss ↔ s ∈ ss ∧ ∀ r ∈ ss, r.start = s.start → s.stop ≤ r.stop := by
  induction h with
  | nil => simp [dropRepeats]
  | @cons s ss hs _ ih =>
      simp only [Stretch.precedes_iff] at hs
      obtain ⟨hinc, hmem⟩ := ih
      have hle : ∀ r ∈ dropRepeats ss, s.start ≤ r.start := by
        intro r hr
        have := hs r ((hmem r).1 hr).1
        omega
      rw [dropRepeats_cons hinc hle]
      refine ⟨List.Pairwise.cons (fun r hr => ?_) (hinc.filter _), fun r => ?_⟩
      · exact of_decide_eq_true (List.mem_filter.1 hr).2
      · rw [List.mem_cons, List.mem_cons, List.mem_filter, hmem, decide_eq_true_eq]
        constructor
        · rintro (rfl | ⟨⟨hr, hshort⟩, hlt⟩)
          · refine ⟨Or.inl rfl, List.forall_mem_cons.2 ⟨fun _ => Nat.le_refl _, ?_⟩⟩
            intro t ht heq
            have := hs t ht
            omega
          · exact ⟨Or.inr hr, List.forall_mem_cons.2
              ⟨fun heq => absurd heq (Nat.ne_of_lt hlt), hshort⟩⟩
        · rintro ⟨rfl | hr, hshort⟩
          · exact Or.inl rfl
          · obtain ⟨hfirst, hshort⟩ := List.forall_mem_cons.1 hshort
            rcases hs r hr with hlt | ⟨heq, hstop⟩
            · exact Or.inr ⟨⟨hr, hshort⟩, hlt⟩
            · left
              cases r
              cases s
              simp only [Stretch.mk.injEq] at heq hstop hfirst ⊢
              omega

def leadingStretches (text : Bytes) (locations : List Location) : List Stretch :=
  dropRepeats ((locations.filterMap (Location.stretch? text)).mergeSort Stretch.precedes)

theorem leadingStretches_pairwise (text : Bytes) (locations : List Location) :
    (leadingStretches text locations).Pairwise fun r s => r.start < s.start :=
  (dropRepeats_sorted (pairwise_precedes _)).1

theorem mem_leadingStretches {text : Bytes} {locations : List Location} {s : Stretch} :
    s ∈ leadingStretches text locations ↔ Leads text locations s := by
  have hmem : ∀ r, r ∈ (locations.filterMap (Location.stretch? text)).mergeSort Stretch.precedes ↔
      ∃ l ∈ locations, l.Names text r := by
    intro r
    simp only [List.mem_mergeSort, List.mem_filterMap, stretch?_eq_some_iff]
  rw [leadingStretches, (dropRepeats_sorted (pairwise_precedes _)).2, hmem]
  constructor
  · rintro ⟨hnamed, hshort⟩
    exact ⟨hnamed, fun l hl r hr => hshort r ((hmem r).2 ⟨l, hl, hr⟩)⟩
  · rintro ⟨hnamed, hshort⟩
    refine ⟨hnamed, fun r hr => ?_⟩
    obtain ⟨l, hl, hr⟩ := (hmem r).1 hr
    exact hshort l hl r hr

/-! Choosing. -/

section

variable {text : Bytes} {last : Nat} {s : Stretch}

theorem chooseFrom_chosen (h : last ≤ s.start ∧ s.Fits text) (ss : List Stretch) :
    chooseFrom text last (s :: ss) = s :: chooseFrom text s.stop ss := by
  rw [Stretch.fits_iff] at h
  rw [chooseFrom, if_pos h]

theorem chooseFrom_passed (h : ¬ (last ≤ s.start ∧ s.Fits text)) (ss : List Stretch) :
    chooseFrom text last (s :: ss) = chooseFrom text last ss := by
  rw [Stretch.fits_iff] at h
  rw [chooseFrom, if_neg h]

end

theorem usable_chooseFrom (text : Bytes) (ss : List Stretch) : ∀ last,
    Usable text last (chooseFrom text last ss) := by
  induction ss with
  | nil =>
      intro last
      trivial
  | cons s ss ih =>
      intro last
      by_cases h : last ≤ s.start ∧ s.Fits text
      · rw [chooseFrom_chosen h]
        exact ⟨⟨h.1, Stretch.fits_iff.1 h.2⟩, ih s.stop⟩
      · rw [chooseFrom_passed h]
        exact ih last

theorem chooseFrom_sublist (text : Bytes) (ss : List Stretch) : ∀ last,
    (chooseFrom text last ss).Sublist ss := by
  induction ss with
  | nil =>
      intro last
      exact List.Sublist.slnil
  | cons s ss ih =>
      intro last
      by_cases h : last ≤ s.start ∧ s.Fits text
      · rw [chooseFrom_chosen h]
        exact (ih s.stop).cons_cons s
      · rw [chooseFrom_passed h]
        exact (ih last).cons s

/-- A stretch that fits is chosen, unless it starts inside a chosen one or before the text that is
left. -/
theorem chooseFrom_covers {text : Bytes} {ss : List Stretch}
    (h : ss.Pairwise fun r s => r.start < s.start) {s : Stretch} (hfits : s.Fits text) :
    ∀ last, s ∈ ss → s ∈ chooseFrom text last ss ∨
      (∃ r ∈ chooseFrom text last ss, r.start < s.start ∧ s.start < r.stop) ∨ s.start < last := by
  induction h with
  | nil =>
      intro last hs
      cases hs
  | @cons t ss ht _ ih =>
      intro last hs
      by_cases hc : last ≤ t.start ∧ t.Fits text
      · rw [chooseFrom_chosen hc]
        rcases List.mem_cons.1 hs with rfl | hs
        · exact Or.inl List.mem_cons_self
        · rcases ih t.stop hs with hin | ⟨r, hr, hcover⟩ | hlt
          · exact Or.inl (List.mem_cons_of_mem t hin)
          · exact Or.inr (Or.inl ⟨r, List.mem_cons_of_mem t hr, hcover⟩)
          · exact Or.inr (Or.inl ⟨t, List.mem_cons_self, ht s hs, hlt⟩)
      · rw [chooseFrom_passed hc]
        rcases List.mem_cons.1 hs with rfl | hs
        · exact Or.inr (Or.inr (Nat.not_le.1 fun hle => hc ⟨hle, hfits⟩))
        · exact ih last hs

/-- Stretches that do not fit may be left out before the choice. -/
theorem chooseFrom_filter (text : Bytes) (ss : List Stretch) : ∀ last,
    chooseFrom text last (ss.filter fun s => s.Fits text) = chooseFrom text last ss := by
  induction ss with
  | nil =>
      intro last
      rfl
  | cons s ss ih =>
      intro last
      by_cases hfits : s.Fits text
      · rw [List.filter_cons, if_pos (decide_eq_true hfits)]
        by_cases hle : last ≤ s.start
        · rw [chooseFrom_chosen ⟨hle, hfits⟩, chooseFrom_chosen ⟨hle, hfits⟩, ih]
        · rw [chooseFrom_passed fun h => hle h.1, chooseFrom_passed fun h => hle h.1, ih]
      · rw [List.filter_cons, if_neg (mt of_decide_eq_true hfits), ih,
          chooseFrom_passed fun h => hfits h.2]

/-- What is replaced is known from the fitting stretches that lead. -/
theorem normalize_congr {text : String} {locations locations' : List Location}
    (h : ∀ s : Stretch, s.Fits (utf8 text) →
      (Leads (utf8 text) locations s ↔ Leads (utf8 text) locations' s)) :
    normalize text locations = normalize text locations' := by
  have : Std.Irrefl fun r s : Stretch => r.start < s.start := ⟨fun r => Nat.lt_irrefl r.start⟩
  have : Std.Antisymm fun r s : Stretch => r.start < s.start :=
    ⟨fun r s hrs hsr => absurd hsr (Nat.lt_asymm hrs)⟩
  have hfit : (leadingStretches (utf8 text) locations).filter (fun s => s.Fits (utf8 text)) =
      (leadingStretches (utf8 text) locations').filter fun s => s.Fits (utf8 text) := by
    apply ((leadingStretches_pairwise _ _).filter _).eq_of_mem_iff
      ((leadingStretches_pairwise _ _).filter _)
    intro s
    simp only [List.mem_filter, decide_eq_true_eq, mem_leadingStretches]
    exact and_congr_left (h s)
  have hchosen : replacedStretches (utf8 text) locations =
      replacedStretches (utf8 text) locations' := by
    change chooseFrom _ 0 (leadingStretches _ _) = chooseFrom _ 0 (leadingStretches _ _)
    rw [← chooseFrom_filter, hfit, chooseFrom_filter]
  rw [normalize, normalize, normalizeBytes, normalizeBytes, hchosen]

/-! The text that is left. -/

theorem Usable.apart {text : Bytes} {last : Nat} {ss : List Stretch} (h : Usable text last ss) :
    (∀ s ∈ ss, s.Fits text) ∧ ss.Pairwise fun r s => r.stop ≤ s.start := by
  induction ss generalizing last with
  | nil => simp
  | cons s ss ih =>
      obtain ⟨hfits, hapart⟩ := ih h.2
      exact ⟨List.forall_mem_cons.2 ⟨Stretch.fits_iff.2 h.1.2, hfits⟩,
        List.Pairwise.cons h.2.start_ge hapart⟩

theorem Usable.replaced {before rest : String} {ss : List Stretch}
    (h : Usable (utf8 (before ++ rest)) before.utf8ByteSize ss) :
    ∃ out, utf8 out = substituteFrom (utf8 (before ++ rest)) before.utf8ByteSize ss ∧
      Replaced before.utf8ByteSize rest ss out := by
  induction ss generalizing before rest with
  | nil =>
      refine ⟨rest, ?_, .kept _ rest⟩
      rw [substituteFrom, utf8_append, ← length_utf8, List.drop_left]
  | cons s ss ih =>
      obtain ⟨start, stop⟩ := s
      obtain ⟨⟨hle, hlt, hstart, hstop⟩, hrest⟩ := h
      obtain ⟨kept, behind, rfl, rfl⟩ := cut_behind hle hstart
      rw [← String.append_assoc] at hstart hstop hrest ⊢
      obtain ⟨gone, rest, rfl, rfl⟩ := cut_behind (Nat.le_of_lt hlt) hstop
      rw [← String.append_assoc] at hstart hstop hrest ⊢
      obtain ⟨out, hout, hreplaced⟩ := ih hrest
      have hgone : gone ≠ "" := by
        rintro rfl
        rw [String.append_empty] at hlt
        exact Nat.lt_irrefl _ hlt
      refine ⟨kept ++ "?" ++ out, ?_, ?_⟩
      · rw [substituteFrom, ← hout]
        have hkept : slice (utf8 (before ++ kept ++ gone ++ rest)) before.utf8ByteSize
            (before ++ kept).utf8ByteSize = utf8 kept := by
          simp only [utf8_append, List.append_assoc, ← length_utf8, List.length_append]
          exact slice_append_left _ _ _
        rw [hkept, utf8_append, utf8_append, List.append_assoc]
        rfl
      · have hnext : (before ++ kept ++ gone).utf8ByteSize =
            before.utf8ByteSize + (kept ++ gone).utf8ByteSize := by
          rw [String.append_assoc, String.utf8ByteSize_append]
        rw [hnext, String.utf8ByteSize_append]
        rw [hnext] at hreplaced
        rw [← String.append_assoc]
        exact .replaced kept hgone hreplaced

/-! The same with checked indexes. -/

namespace Indexed

variable (b : Bytes) (greatest : Nat)

/-- The stretch that a location names, where no number grows beyond `greatest`. -/
def stretchOf (l : Location) : Except OutOfRange (Option Stretch) :=
  if l.offset < b.length then do
    let length? ← match l.length? with
      | some n => pure (some n)
      | none => literalAt b l.offset
    return length?.map fun n => ⟨l.offset, min (min (l.offset + n) greatest) b.length⟩
  else return none

/-- The text from `last` on, which is a character boundary or else an error. -/
def textFrom (last : Nat) : Except OutOfRange Bytes :=
  match slice? b last b.length with
  | some w => .ok w
  | none => .error ⟨last, b.length, b.length⟩

def replaceFrom (last : Nat) : List Stretch → Except OutOfRange Bytes
  | [] => textFrom b last
  | s :: ss =>
    if s.start < last ∨ s.stop ≤ s.start then replaceFrom last ss
    else match slice? b last s.start, slice? b s.start s.stop with
      | some kept, some _ => do return kept ++ placeholder :: (← replaceFrom s.stop ss)
      | _, _ => replaceFrom last ss

def normalize (locations : List Location) : Except OutOfRange Bytes := do
  let stretches ← locations.mapM (stretchOf b greatest)
  replaceFrom b 0 (dropRepeats ((stretches.filterMap id).mergeSort Stretch.precedes))

variable {b greatest}

theorem stretchOf_eq (hlength : b.length ≤ greatest) (l : Location) :
    stretchOf b greatest l = .ok (l.stretch? b) := by
  have hmin : ∀ n, min (min (l.offset + n) greatest) b.length = min (l.offset + n) b.length := by
    intro n
    omega
  rw [stretchOf, Location.stretch?]
  simp only [hmin]
  split
  · cases l.length? with
    | some n => rfl
    | none =>
        simp only [literalAt_eq]
        rfl
  · rfl

theorem mapM_stretchOf (hlength : b.length ≤ greatest) (locations : List Location) :
    locations.mapM (stretchOf b greatest) = .ok (locations.map (Location.stretch? b)) := by
  induction locations with
  | nil => rfl
  | cons l locations ih =>
      rw [List.mapM_cons, stretchOf_eq hlength, ih]
      rfl

theorem replaceFrom_eq (ss : List Stretch) : ∀ last, isBoundary b last = true →
    isBoundary b b.length = true →
    replaceFrom b last ss = .ok (substituteFrom b last (chooseFrom b last ss)) := by
  induction ss with
  | nil =>
      intro last hlast hend
      have hslice : slice? b last b.length = some (b.drop last) := by
        rw [slice?, if_pos ⟨isBoundary_le hlast, hlast, hend⟩, slice, List.take_of_length_le]
        rw [List.length_drop]
      rw [replaceFrom, textFrom, hslice]
      rfl
  | cons s ss ih =>
      intro last hlast hend
      rw [replaceFrom]
      by_cases h : last ≤ s.start ∧ s.Fits b
      · have hkept : slice? b last s.start = some (slice b last s.start) :=
          if_pos ⟨h.1, hlast, h.2.start⟩
        have hgone : slice? b s.start s.stop = some (slice b s.start s.stop) :=
          if_pos ⟨Nat.le_of_lt h.2.nonempty, h.2.start, h.2.stop⟩
        have hplace : ¬ (s.start < last ∨ s.stop ≤ s.start) := by
          have := h.1
          have := h.2.nonempty
          omega
        rw [if_neg hplace, hkept, hgone, chooseFrom_chosen h]
        simp only [ih s.stop h.2.stop hend]
        rfl
      · rw [chooseFrom_passed h, ih last hlast hend]
        split
        · rfl
        · rename_i hplace
          have hcut : ¬ (isBoundary b s.start = true ∧ isBoundary b s.stop = true) := by
            rintro ⟨hstart, hstop⟩
            exact h ⟨by omega, by omega, hstart, hstop⟩
          cases hstart : isBoundary b s.start with
          | false =>
              have hnone : slice? b last s.start = none := by
                rw [slice?, if_neg]
                simp [hstart]
              rw [hnone]
          | true =>
              have hnone : slice? b s.start s.stop = none := by
                rw [slice?, if_neg]
                exact fun hc => hcut hc.2
              rw [hnone]
              cases slice? b last s.start <;> rfl

end Indexed

/-- The normal form under any locations. With numbers up to any bound that the length of the text
does not exceed, no slice of the text is refused; stretches that fit, apart from each other and each
named by a location, are replaced; of those that fit and lead the others start inside one of them;
and neither the order of the locations nor a repetition has a say. -/
theorem normalize_replaces (text : String) (locations : List Location) :
    (∀ greatest, (utf8 text).length ≤ greatest →
      Indexed.normalize (utf8 text) greatest locations = .ok (utf8 (normalize text locations))) ∧
    Replaced 0 text (replacedStretches (utf8 text) locations) (normalize text locations) ∧
    (∀ s ∈ replacedStretches (utf8 text) locations,
      s.Fits (utf8 text) ∧ s.stop ≤ (utf8 text).length ∧ ∃ l ∈ locations, l.Names (utf8 text) s) ∧
    (replacedStretches (utf8 text) locations).Pairwise (fun r s => r.stop ≤ s.start) ∧
    (∀ s : Stretch, s.Fits (utf8 text) → Leads (utf8 text) locations s →
      s ∈ replacedStretches (utf8 text) locations ∨
        ∃ r ∈ replacedStretches (utf8 text) locations, r.start < s.start ∧ s.start < r.stop) ∧
    ∀ locations' : List Location, (∀ l, l ∈ locations' ↔ l ∈ locations) →
      normalize text locations' = normalize text locations := by
  have husable : Usable (utf8 text) 0 (replacedStretches (utf8 text) locations) :=
    usable_chooseFrom _ _ 0
  obtain ⟨hfits, hapart⟩ := husable.apart
  have hwhole : Usable (utf8 ("" ++ text)) "".utf8ByteSize
      (replacedStretches (utf8 text) locations) := by rwa [String.empty_append]
  obtain ⟨out, hout, hreplaced⟩ := hwhole.replaced
  rw [String.empty_append, String.utf8ByteSize_empty] at hout
  have hnormal : normalize text locations = out := by
    rw [normalize, normalizeBytes, ← hout, ofUtf8_utf8]
  refine ⟨fun greatest hlength => ?_, hnormal ▸ hreplaced, fun s hs => ?_, hapart,
    fun s hs hleads => ?_, fun locations' hsame => ?_⟩
  · have hend : isBoundary (utf8 text) (utf8 text).length = true :=
      isBoundary_iff.2 ⟨text, "", (String.append_empty).symm, (length_utf8 text).symm⟩
    have hstart : isBoundary (utf8 text) 0 = true :=
      isBoundary_iff.2 ⟨"", text, (String.empty_append).symm, rfl⟩
    rw [Indexed.normalize, Indexed.mapM_stretchOf hlength, hnormal, hout]
    change Indexed.replaceFrom _ 0 (dropRepeats (((locations.map _).filterMap id).mergeSort _)) = _
    rw [List.filterMap_map]
    exact Indexed.replaceFrom_eq _ 0 hstart hend
  · exact ⟨hfits s hs, isBoundary_le (hfits s hs).stop,
      (mem_leadingStretches.1 ((chooseFrom_sublist _ _ 0).subset hs)).named⟩
  · rcases chooseFrom_covers (leadingStretches_pairwise (utf8 text) locations) hs 0
      (mem_leadingStretches.2 hleads) with hin | hcovered | hlt
    · exact Or.inl hin
    · exact Or.inr hcovered
    · exact absurd hlt (Nat.not_lt_zero _)
  · apply normalize_congr
    intro s _
    exact ⟨fun h => h.of_mem hsame, fun h => h.of_mem fun l => (hsame l).symm⟩

end PlanFeedback.Query
