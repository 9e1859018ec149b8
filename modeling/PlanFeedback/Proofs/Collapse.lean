import PlanFeedback.Proofs.Layout

/-!
The normal form of the layout. Collapsing a text trims it and puts one space for each run of white
space behind an even number of apostrophes; nothing else is changed, and a collapsed text stays as it
is.
-/
namespace PlanFeedback.Text

open Query (quotedAfter quotedAfter_eq isBlank_ne_apostrophe trimBlanks_append_blanks
  trimBlanks_blanks_append trimBlanks_eq squeeze_trim_iff)

/-- White space that the layout is made of: an even number of apostrophes stands before it. -/
def isLoose (before : List Char) (c : Char) : Bool :=
  isBlank c && decide (Even (before.count '\''))

/-- The characters of a text, each with whether it is loose. -/
def marked (x : List Char) : List (Char × Bool) :=
  x.mapIdx fun i c => (c, isLoose (x.take i) c)

def solids (x : List Char) : List Char :=
  ((marked x).filter fun m => !m.2).map Prod.fst

/-- What is loose before the first solid character, between two of them and behind the last one; an
empty list where nothing is. -/
def gaps (x : List Char) : List (List Char) :=
  ((marked x).splitOnP fun m => !m.2).map (List.map Prod.fst)

/-- One space for a gap that is not empty. -/
def oneSpace (gap : List Char) : List Char := if gap = [] then [] else [' ']

/-- One or more characters of white space. -/
def IsBlankRun (w : String) : Prop := w.toList ≠ [] ∧ ∀ c ∈ w.toList, isBlank c = true

instance (w : String) : Decidable (IsBlankRun w) :=
  decidable_of_iff (w.toList ≠ [] ∧ w.toList.all isBlank = true) (by
    rw [IsBlankRun, List.all_eq_true])

def Trimmed (x : List Char) : Prop :=
  (∀ c ∈ x.head?, isBlank c = false) ∧ ∀ c ∈ x.getLast?, isBlank c = false

variable {x : List Char}

/-! Trimming. -/

theorem trimBlanks_split (x : List Char) : ∃ front back, x = front ++ trimBlanks x ++ back ∧
    (∀ c ∈ front, isBlank c = true) ∧ ∀ c ∈ back, isBlank c = true := by
  refine ⟨x.takeWhile isBlank, (x.dropWhile isBlank).rtakeWhile isBlank, ?_, ?_, ?_⟩
  · rw [trimBlanks_eq, List.append_assoc, List.rdropWhile_append_rtakeWhile,
      List.takeWhile_append_dropWhile]
  · intro c hc
    exact List.mem_takeWhile_imp hc
  · intro c hc
    exact List.mem_rtakeWhile_imp hc

theorem trimmed_trimBlanks (x : List Char) : Trimmed (trimBlanks x) := by
  rw [trimBlanks_eq]
  constructor
  · intro c hc
    obtain ⟨rest, hrest⟩ := List.rdropWhile_prefix isBlank (x.dropWhile isBlank)
    have hhead := List.head?_dropWhile_not isBlank x
    rw [← hrest, List.head?_append, Option.mem_def.1 hc] at hhead
    exact hhead
  · intro c hc
    obtain ⟨hne, rfl⟩ := List.mem_getLast?_eq_getLast hc
    simpa using List.rdropWhile_last_not isBlank _ hne

theorem Trimmed.trimBlanks_eq_self (h : Trimmed x) : trimBlanks x = x := by
  have hfront : x.dropWhile isBlank = x := by
    cases x with
    | nil => rfl
    | cons c x => rw [List.dropWhile_cons_of_neg (by simp [h.1 c rfl])]
  rw [trimBlanks_eq, hfront, List.rdropWhile_eq_self_iff]
  intro hne
  simp [h.2 _ (List.getLast?_eq_some_getLast hne)]

/-! The characters with their marks. -/

def marks (quoted : Bool) : List Char → List (Char × Bool)
  | [] => []
  | c :: rest => (c, !quoted && isBlank c) :: marks (quotedAfter quoted [c]) rest

theorem marks_eq (x : List Char) : ∀ before,
    (x.mapIdx fun i c => (c, isLoose (before ++ x.take i) c)) =
      marks (quotedAfter false before) x := by
  induction x with
  | nil => exact fun before => rfl
  | cons c x ih =>
      intro before
      have hparity : quotedAfter (quotedAfter false before) [c] = quotedAfter false (before ++ [c]) := by
        simp only [quotedAfter_eq, List.count_append, Nat.even_add]
        by_cases hb : Even (before.count '\'') <;> by_cases hc : Even (List.count '\'' [c]) <;>
          simp [hb, hc]
      have hrest := ih (before ++ [c])
      simp only [List.append_assoc, List.singleton_append] at hrest
      rw [List.mapIdx_cons, marks, hparity, ← hrest]
      simp [isLoose, quotedAfter_eq, Bool.and_comm]

theorem marked_eq (x : List Char) : marked x = marks false x := marks_eq x []

theorem marks_loose {c : Char} (hc : isBlank c = true) (x : List Char) :
    marks false (c :: x) = (c, true) :: marks false x := by
  rw [marks, hc, quotedAfter, if_neg (isBlank_ne_apostrophe hc)]
  rfl

theorem marks_solid {quoted : Bool} {c : Char} (hc : (!quoted && isBlank c) = false)
    (x : List Char) : marks quoted (c :: x) = (c, false) :: marks (quotedAfter quoted [c]) x := by
  rw [marks, hc]

/-! Collapsing reads a text character by character. -/

theorem squeeze_loose {c : Char} (hc : isBlank c = true) (pending : Bool) (x : List Char) :
    squeeze false pending (c :: x) = squeeze false true x := by
  rw [squeeze, if_pos (by rw [hc]; rfl)]

theorem squeeze_solid {quoted : Bool} {c : Char} (hc : (!quoted && isBlank c) = false)
    (pending : Bool) (x : List Char) :
    squeeze quoted pending (c :: x) =
      (if pending then [' '] else []) ++ c :: squeeze (quotedAfter quoted [c]) false x := by
  rw [squeeze, if_neg (by rw [hc]; exact Bool.false_ne_true)]
  cases pending <;> rfl

/-- A character is loose or not, and one that is not goes on to the rest in a state of its own. -/
theorem squeeze_induction {P : Bool → Bool → List Char → Prop}
    (nil : ∀ quoted pending, P quoted pending [])
    (loose : ∀ pending c x, isBlank c = true → P false true x → P false pending (c :: x))
    (solid : ∀ quoted pending c x, (!quoted && isBlank c) = false →
      P (quotedAfter quoted [c]) false x → P quoted pending (c :: x))
    (quoted pending : Bool) (x : List Char) : P quoted pending x := by
  induction x generalizing quoted pending with
  | nil => exact nil quoted pending
  | cons c x ih =>
      cases hc : !quoted && isBlank c with
      | false => exact solid quoted pending c x hc (ih _ false)
      | true =>
          obtain ⟨hquoted, hblank⟩ := Bool.and_eq_true_iff.1 hc
          obtain rfl : quoted = false := by simpa using hquoted
          exact loose pending c x hblank (ih false true)

/-- A run is never pending within apostrophes, so that its space is loose again. -/
theorem marks_squeeze_solid {quoted : Bool} {c : Char} (hc : (!quoted && isBlank c) = false)
    {pending : Bool} (hstate : pending = true → quoted = false) (x : List Char) :
    marks quoted (squeeze quoted pending (c :: x)) =
      (if pending then [(' ', true)] else []) ++
        (c, false) :: marks (quotedAfter quoted [c]) (squeeze (quotedAfter quoted [c]) false x) := by
  rw [squeeze_solid hc]
  cases pending with
  | false => exact marks_solid hc _
  | true =>
      obtain rfl := hstate rfl
      have hspace : isBlank ' ' = true := rfl
      exact (marks_loose hspace _).trans (congrArg _ (marks_solid hc _))

/-- The marks that are not loose stay. -/
theorem filter_marks_squeeze {quoted pending : Bool} (hstate : pending = true → quoted = false)
    (x : List Char) :
    (marks quoted (squeeze quoted pending x)).filter (fun m => !m.2) =
      (marks quoted x).filter fun m => !m.2 := by
  induction quoted, pending, x using squeeze_induction with
  | nil quoted pending => rfl
  | loose pending c x hc ih =>
      rw [squeeze_loose hc, ih fun _ => rfl, marks_loose hc]
      rfl
  | solid quoted pending c x hc ih =>
      rw [marks_squeeze_solid hc hstate, marks_solid hc, List.filter_append,
        List.filter_cons_of_pos rfl, List.filter_cons_of_pos rfl, ih Bool.false_ne_true.elim]
      cases pending <;> rfl

def gapsFrom (quoted : Bool) (x : List Char) : List (List Char) :=
  ((marks quoted x).splitOnP fun m => !m.2).map (List.map Prod.fst)

theorem gapsFrom_loose {c : Char} (hc : isBlank c = true) (x : List Char) :
    gapsFrom false (c :: x) = (gapsFrom false x).modifyHead (c :: ·) := by
  rw [gapsFrom, marks_loose hc, List.splitOnP_cons_eq_if_modifyHead, if_neg (by simp), gapsFrom]
  cases (marks false x).splitOnP fun m => !m.2 <;> rfl

theorem gapsFrom_solid {quoted : Bool} {c : Char} (hc : (!quoted && isBlank c) = false)
    (x : List Char) : gapsFrom quoted (c :: x) = [] :: gapsFrom (quotedAfter quoted [c]) x := by
  rw [gapsFrom, marks_solid hc, List.splitOnP_cons_eq_if_modifyHead]
  rfl

theorem gapsFrom_squeeze_solid {quoted : Bool} {c : Char} (hc : (!quoted && isBlank c) = false)
    {pending : Bool} (hstate : pending = true → quoted = false) (x : List Char) :
    gapsFrom quoted (squeeze quoted pending (c :: x)) =
      (if pending then [' '] else []) ::
        gapsFrom (quotedAfter quoted [c]) (squeeze (quotedAfter quoted [c]) false x) := by
  rw [gapsFrom, marks_squeeze_solid hc hstate]
  cases pending <;> simp [List.splitOnP_cons_eq_if_modifyHead, gapsFrom]

theorem gapsFrom_ne_nil (quoted : Bool) (x : List Char) : gapsFrom quoted x ≠ [] := by
  rw [gapsFrom, Ne, List.map_eq_nil_iff]
  exact List.splitOnP_ne_nil _ _

/-- Where the text does not end with white space, each gap becomes one space, and a run that is
pending goes on into the first gap. -/
theorem gapsFrom_squeeze {quoted pending : Bool} (hstate : pending = true → quoted = false)
    (x : List Char) (hend : ∀ c ∈ x.getLast?, isBlank c = false) (hne : pending = true → x ≠ []) :
    gapsFrom quoted (squeeze quoted pending x) =
      ((gapsFrom quoted x).map oneSpace).modifyHead fun gap => if pending then [' '] else gap := by
  induction quoted, pending, x using squeeze_induction with
  | nil quoted pending =>
      cases pending with
      | false => rfl
      | true => exact absurd rfl (hne rfl)
  | loose pending c x hc ih =>
      have hx : x ≠ [] := by
        rintro rfl
        simp [hc] at hend
      have hrest : ∀ d ∈ x.getLast?, isBlank d = false := fun d hd =>
        hend d (by rw [List.getLast?_cons, Option.mem_def.1 hd]; rfl)
      obtain ⟨gap, more, hgaps⟩ := List.exists_cons_of_ne_nil (gapsFrom_ne_nil false x)
      rw [squeeze_loose hc, ih (fun _ => rfl) hrest fun _ => hx, gapsFrom_loose hc, hgaps]
      cases pending <;> rfl
  | solid quoted pending c x hc ih =>
      have hrest : ∀ d ∈ x.getLast?, isBlank d = false := fun d hd =>
        hend d (by rw [List.getLast?_cons, Option.mem_def.1 hd]; rfl)
      have hlater := ih Bool.false_ne_true.elim hrest Bool.false_ne_true.elim
      obtain ⟨gap, more, hgaps⟩ :=
        List.exists_cons_of_ne_nil (gapsFrom_ne_nil (quotedAfter quoted [c]) x)
      rw [gapsFrom_squeeze_solid hc hstate, hlater, gapsFrom_solid hc, hgaps]
      cases pending <;> rfl

theorem gaps_squeeze (h : Trimmed x) : gaps (squeeze false false x) = (gaps x).map oneSpace := by
  have hgaps : ∀ y, gaps y = gapsFrom false y := fun y => by rw [gaps, marked_eq, gapsFrom]
  obtain ⟨gap, more, hx⟩ := List.exists_cons_of_ne_nil (gapsFrom_ne_nil false x)
  rw [hgaps, hgaps, gapsFrom_squeeze Bool.false_ne_true.elim x h.2 Bool.false_ne_true.elim, hx]
  rfl

theorem solids_squeeze (x : List Char) : solids (squeeze false false x) = solids x := by
  rw [solids, solids, marked_eq, marked_eq, filter_marks_squeeze Bool.false_ne_true.elim]

/-! Collapsing twice. -/

theorem squeeze_squeeze {quoted pending : Bool} (hstate : pending = true → quoted = false)
    (x : List Char) :
    squeeze quoted false (squeeze quoted pending x) = squeeze quoted pending x := by
  induction quoted, pending, x using squeeze_induction with
  | nil quoted pending => rfl
  | loose pending c x hc ih => rw [squeeze_loose hc, ih fun _ => rfl]
  | solid quoted pending c x hc ih =>
      have hagain : ∀ space, squeeze quoted space (c :: squeeze (quotedAfter quoted [c]) false x) =
          (if space then [' '] else []) ++ c :: squeeze (quotedAfter quoted [c]) false x := by
        intro space
        rw [squeeze_solid hc, ih Bool.false_ne_true.elim]
      rw [squeeze_solid hc]
      cases pending with
      | false => exact hagain false
      | true =>
          obtain rfl := hstate rfl
          have hspace : isBlank ' ' = true := rfl
          exact (squeeze_loose hspace false _).trans (hagain true)

theorem getLast?_squeeze (quoted pending : Bool) (x : List Char)
    (hend : ∀ c ∈ x.getLast?, isBlank c = false) :
    (squeeze quoted pending x).getLast? = x.getLast? := by
  induction quoted, pending, x using squeeze_induction with
  | nil quoted pending => rfl
  | loose pending c x hc ih =>
      cases x with
      | nil => simp [hc] at hend
      | cons d x =>
          rw [List.getLast?_cons_cons] at hend
          rw [squeeze_loose hc, ih hend, List.getLast?_cons_cons]
  | solid quoted pending c x hc ih =>
      have hrest : ∀ d ∈ x.getLast?, isBlank d = false := fun d hd =>
        hend d (by rw [List.getLast?_cons, Option.mem_def.1 hd]; rfl)
      rw [squeeze_solid hc, List.getLast?_append, List.getLast?_cons, ih hrest, List.getLast?_cons]
      rfl

theorem Trimmed.squeeze (h : Trimmed x) : Trimmed (squeeze false false x) := by
  refine ⟨?_, ?_⟩
  · cases x with
    | nil => exact h.1
    | cons c x =>
        have hc : isBlank c = false := h.1 c rfl
        rw [squeeze_solid (by rw [hc]; rfl)]
        exact h.1
  · rw [getLast?_squeeze false false x h.2]
    exact h.2

theorem toList_collapse (t : String) :
    (collapse t).toList = squeeze false false (trimBlanks t.toList) := by
  rw [collapse, String.toList_ofList]

theorem collapse_collapse (t : String) : collapse (collapse t) = collapse t := by
  apply String.toList_inj.1
  rw [toList_collapse, toList_collapse,
    (trimmed_trimBlanks t.toList).squeeze.trimBlanks_eq_self, squeeze_squeeze Bool.false_ne_true.elim]

/-- Collapsing gives a normal form of the layout: a second time it changes nothing; a run of white
space behind an even number of apostrophes may be exchanged for another run, and white space be put
before and behind the text; and of the trimmed text the solid characters stay, with one space for
each gap that is not empty. -/
theorem collapse_normal (t : String) :
    collapse (collapse t) = collapse t ∧
    (∀ a w b w' : String, t = a ++ w ++ b → IsBlankRun w → IsBlankRun w' →
      Even (a.toList.count '\'') → collapse (a ++ w' ++ b) = collapse t) ∧
    (∀ w : String, (∀ c ∈ w.toList, isBlank c = true) →
      collapse (w ++ t) = collapse t ∧ collapse (t ++ w) = collapse t) ∧
    ∃ front core back : List Char, t.toList = front ++ core ++ back ∧
      (∀ c ∈ front, isBlank c = true) ∧ (∀ c ∈ back, isBlank c = true) ∧ Trimmed core ∧
      solids (collapse t).toList = solids core ∧
      gaps (collapse t).toList = (gaps core).map oneSpace := by
  refine ⟨collapse_collapse t, ?exchange, ?ends, ?kept⟩
  case exchange =>
    rintro a w b w' rfl hw hw' heven
    apply String.toList_inj.1
    simp only [toList_collapse, String.toList_append, List.append_assoc]
    exact (squeeze_trim_iff hw'.1 hw'.2 hw.1 hw.2).2 (Or.inr (Or.inl heven))
  case ends =>
    intro w hw
    simp only [collapse, String.toList_append, trimBlanks_blanks_append hw,
      trimBlanks_append_blanks hw, and_self]
  case kept =>
    obtain ⟨front, back, hsplit, hfront, hback⟩ := trimBlanks_split t.toList
    have hcore := trimmed_trimBlanks t.toList
    rw [toList_collapse]
    exact ⟨front, trimBlanks t.toList, back, hsplit, hfront, hback, hcore, solids_squeeze _,
      gaps_squeeze hcore⟩

theorem collapse_normal_quoted :
    IsBlankRun "\n\t" ∧ IsBlankRun " " ∧ Even ("SELECT 'a  b'".toList.count '\'') ∧
      collapse ("SELECT 'a  b'" ++ " " ++ "FROM t") =
        collapse ("SELECT 'a  b'" ++ "\n\t" ++ "FROM t") := by
  have hwide : IsBlankRun "\n\t" := by decide +kernel
  have hspace : IsBlankRun " " := by decide +kernel
  have heven : Even ("SELECT 'a  b'".toList.count '\'') := by decide +kernel
  exact ⟨hwide, hspace, heven, (collapse_normal _).2.1 _ _ _ _ rfl hwide hspace heven⟩

end PlanFeedback.Text
