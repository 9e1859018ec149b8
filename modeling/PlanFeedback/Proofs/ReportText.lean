import Mathlib.Data.List.Induction
import PlanFeedback.Feedback.Report

/-!
A report is read back from its text. Each line of a body stands behind two tabs and holds no line
feed, so no line of a body passes for a header, whatever the body says.
-/
namespace PlanFeedback.Text

/-! Lines and line feeds. -/

/-- The line that a line feed ends, without a carriage return before the line feed. -/
def dropReturn (line : List Char) : List Char :=
  if line.getLast? = some '\r' then line.dropLast else line

theorem mem_of_mem_dropReturn {line : List Char} {c : Char} (h : c ∈ dropReturn line) :
    c ∈ line := by
  unfold dropReturn at h
  split at h
  · exact List.dropLast_subset line h
  · exact h

theorem dropEnding_closed (line : List Char) : dropEnding (line ++ ['\n']) = dropReturn line := by
  induction line using List.reverseRecOn with
  | nil => rfl
  | append_singleton line c =>
      by_cases hc : c = '\r'
      · subst hc
        simp [dropEnding, dropReturn]
      · simp [dropEnding, dropReturn, hc]

theorem dropEnding_open {line : List Char} (h : '\n' ∉ line) : dropEnding line = line := by
  unfold dropEnding
  split
  · next heq => exact absurd (List.mem_reverse.1 (heq ▸ List.mem_cons_self)) h
  · next heq => exact absurd (List.mem_reverse.1 (heq ▸ List.mem_cons_self)) h
  · rfl

theorem pieces_splitOn (s : List Char) : ∃ closed last, s.splitOn '\n' = closed ++ [last] ∧
    (∀ line ∈ closed ++ [last], '\n' ∉ line) ∧
    pieces s = closed.map (· ++ ['\n']) ++ if last = [] then [] else [last] := by
  induction s with
  | nil => exact ⟨[], [], rfl, by simp, rfl⟩
  | cons c s ih =>
      obtain ⟨closed, last, hsplit, hfree, hpieces⟩ := ih
      rw [List.splitOn_cons_eq_if_modifyHead, hsplit, pieces, hpieces]
      by_cases hc : c = '\n'
      · refine ⟨[] :: closed, last, ?_, ?_, ?_⟩
        · simp [hc]
        · simpa using hfree
        · simp [hc]
      · cases closed with
        | nil =>
            refine ⟨[], c :: last, by simp [hc], ?_, ?_⟩
            · simpa [Ne.symm hc] using hfree
            · by_cases hlast : last = [] <;> simp [hc, hlast]
        | cons line closed =>
            refine ⟨(c :: line) :: closed, last, by simp [hc], ?_, by simp [hc]⟩
            simpa [Ne.symm hc] using hfree

/-- The lines of a text by its line feeds. Each stretch that a line feed ends is a line without a
carriage return at its end; what is left behind the last line feed is a line unless it is empty. -/
def fedLines (s : List Char) : List (List Char) :=
  let stretches := s.splitOn '\n'
  stretches.dropLast.map dropReturn ++ stretches.getLast?.toList.filter (· ≠ [])

theorem lines_toList (s : String) : (lines s).map String.toList = fedLines s.toList := by
  obtain ⟨closed, last, hsplit, hfree, hpieces⟩ := pieces_splitOn s.toList
  have hlast : dropEnding last = last := dropEnding_open (hfree last (by simp))
  simp only [lines, hpieces, fedLines, hsplit, List.map_append, List.map_map,
    List.dropLast_concat, List.getLast?_concat, Option.toList_some]
  congr 1
  · apply List.map_congr_left
    intro line _
    simp [dropEnding_closed]
  · by_cases h : last = [] <;> simp [h, hlast]

example : fedLines "a\r\n\r\r\n\n---- Hints\r".toList =
    [['a'], ['\r'], [], "---- Hints\r".toList] := by decide

theorem lineFeed_notMem_lines {s line : String} (h : line ∈ lines s) : '\n' ∉ line.toList := by
  obtain ⟨closed, last, hsplit, hfree, -⟩ := pieces_splitOn s.toList
  have hline : line.toList ∈ fedLines s.toList := by
    rw [← lines_toList]
    exact List.mem_map_of_mem h
  simp only [fedLines, hsplit, List.dropLast_concat, List.getLast?_concat] at hline
  rcases List.mem_append.1 hline with hclosed | hlast
  · obtain ⟨stretch, hstretch, heq⟩ := List.mem_map.1 hclosed
    rw [← heq]
    exact fun hc => hfree stretch (by simp [hstretch]) (mem_of_mem_dropReturn hc)
  · have hmem : line.toList = last := by simpa using (List.mem_filter.1 hlast).1
    rw [hmem]
    exact hfree last (by simp)

theorem splitOn_ended {lines : List (List Char)} (hfree : ∀ line ∈ lines, '\n' ∉ line) :
    (lines.flatMap (· ++ ['\n'])).splitOn '\n' = lines ++ [[]] := by
  induction lines with
  | nil => rfl
  | cons line lines ih =>
      rw [List.forall_mem_cons] at hfree
      rw [List.flatMap_cons, List.append_assoc, List.singleton_append,
        List.splitOn_append_cons_self_of_not_mem hfree.1, ih hfree.2, List.cons_append]

theorem getLast?_ended {lines : List (List Char)} (hlines : lines ≠ []) :
    (lines.flatMap (· ++ ['\n'])).getLast? = some '\n' := by
  obtain ⟨front, last, rfl⟩ := (List.eq_nil_or_concat lines).resolve_left hlines
  simp [List.flatMap_append]

end PlanFeedback.Text

namespace PlanFeedback.Feedback.Report

open Text (lines fedLines lines_toList lineFeed_notMem_lines splitOn_ended getLast?_ended)

/-! Headers and bodies. -/

def headers : List String :=
  ["---- Query text --------------------",
    "---- Query id ----------------------",
    "---- Plan id -----------------------",
    "---- Query hash --------------------",
    "---- Execution time (ms) -----------",
    "---- Hints -------------------------",
    "---- Rows hint (feedback info) -----",
    "---- Join cnt ----------------------",
    "---- Total diff rows of joins ------",
    "---- Application name --------------"]

def failuresHeader : String := "---- Persistence failures ----------"

def failureLine (f : Failure) : String :=
  (match f.step with
    | .loadHints => "load hints"
    | .replaceHints => "replace hints"
    | .appendHistory => "plan_history"
    | .recordNormalized => "norm_queries"
    | .recordRaw => "raw_queries") ++ ": " ++
  match f.error with
  | .database detail => "数据库错误: " ++ detail
  | .serialization detail => "序列化错误: " ++ detail
  | .schemaMissing table => "仓库表不存在: " ++ table

/-- What a report says, section by section. -/
def bodies (r : Report) : List String :=
  [r.fingerprint.normalized,
    toString r.fingerprint.queryId.toNat,
    toString r.planId.toNat,
    r.fingerprint.digest.toHex,
    Decimal.fixed 3 r.milliseconds,
    r.directives.scan ++ "\n" ++ r.directives.join ++ "\n" ++ r.directives.leading,
    r.directives.rows,
    toString r.directives.joinCount,
    Decimal.fixed 0 r.directives.totalDiff,
    r.client] ++
  if r.failures = [] then [] else ["\n".intercalate (r.failures.map failureLine)]

/-- A line does not start with two tabs. -/
def isHeader (line : List Char) : Bool := !(['\t', '\t'].isPrefixOf line)

/-- The header of a section without the line feed that ends it. -/
def headerLine (title : String) : List Char := (header title).toList.dropLast

def bodyLine (line : String) : List Char := '\t' :: '\t' :: line.toList

/-- The lines of the text of sections. -/
def textLines (sections : List (String × String)) : List (List Char) :=
  sections.flatMap fun s => headerLine s.1 :: (lines s.2).map bodyLine

theorem header_toList (title : String) : (header title).toList = headerLine title ++ ['\n'] := by
  have hend : "\n".toList = ['\n'] := rfl
  rw [headerLine, header, String.toList_append, hend, List.dropLast_concat]

theorem headerLine_eq (title : String) : headerLine title =
    "---- ".toList ++ title.toList ++ ' ' :: List.replicate (30 - title.toList.length) '-' := by
  have heq := header_toList title
  rw [header, String.toList_append] at heq
  rw [← List.append_cancel_right heq]
  simp [String.length_toList]

theorem isHeader_headerLine (title : String) : isHeader (headerLine title) = true := by
  simp [isHeader, headerLine, header, List.isPrefixOf]

theorem isHeader_bodyLine (line : String) : isHeader (bodyLine line) = false := by
  simp [isHeader, bodyLine]

theorem sectionText_toList (title body : String) : (sectionText title body).toList =
    (headerLine title :: (lines body).map bodyLine).flatMap (· ++ ['\n']) := by
  simp [sectionText, header_toList, bodyLine, List.flatMap_map]

theorem render_toList (r : Report) :
    r.render.toList = (textLines r.sections).flatMap (· ++ ['\n']) := by
  simp only [render, String.toList_join, textLines, List.flatMap_map, List.flatMap_assoc,
    sectionText_toList]

theorem lineFeed_notMem_textLines {sections : List (String × String)}
    (htitles : ∀ s ∈ sections, '\n' ∉ headerLine s.1) :
    ∀ line ∈ textLines sections, '\n' ∉ line := by
  intro line hline
  obtain ⟨s, hs, hline⟩ := List.mem_flatMap.1 hline
  rcases List.mem_cons.1 hline with rfl | hbody
  · exact htitles s hs
  · obtain ⟨text, htext, rfl⟩ := List.mem_map.1 hbody
    simpa [bodyLine] using lineFeed_notMem_lines htext

theorem filter_textLines (sections : List (String × String)) :
    (textLines sections).filter isHeader = sections.map fun s => headerLine s.1 := by
  induction sections with
  | nil => rfl
  | cons s sections ih =>
      have hbody : ((lines s.2).map bodyLine).filter isHeader = [] := by
        simp [List.filter_eq_nil_iff, isHeader_bodyLine]
      simp only [textLines, List.flatMap_cons, List.cons_append, List.filter_append, hbody,
        List.filter_cons_of_pos (isHeader_headerLine s.1), List.nil_append, List.map_cons]
      rw [← ih, textLines]

/-- Between the headers stand the bodies, one behind each header and nothing before the first. -/
theorem splitOnP_textLines (sections : List (String × String)) (front : List (List Char))
    (hfront : ∀ line ∈ front, isHeader line = false) :
    (front ++ textLines sections).splitOnP isHeader =
      front :: sections.map fun s => (lines s.2).map bodyLine := by
  induction sections generalizing front with
  | nil => simpa [textLines] using List.splitOnP_eq_singleton hfront
  | cons s sections ih =>
      have hbody : ∀ line ∈ (lines s.2).map bodyLine, isHeader line = false := by
        simp [isHeader_bodyLine]
      rw [textLines, List.flatMap_cons, List.cons_append,
        List.splitOnP_append_cons_of_forall_mem hfront _ (isHeader_headerLine s.1), List.map_cons,
        ← ih _ hbody, textLines]

theorem headerLine_sections (r : Report) : (r.sections.map fun s => headerLine s.1) =
    (headers ++ if r.failures = [] then [] else [failuresHeader]).map String.toList := by
  have hten : ["Query text", "Query id", "Plan id", "Query hash", "Execution time (ms)", "Hints",
      "Rows hint (feedback info)", "Join cnt", "Total diff rows of joins",
      "Application name"].map headerLine = headers.map String.toList := by
    simp [headerLine_eq, headers]
  have hfailures : headerLine "Persistence failures" = failuresHeader.toList := by
    simp [headerLine_eq, failuresHeader]
  simp only [sections, List.isEmpty_iff, List.map_append, ← hten]
  split
  · rfl
  · simp [hfailures]

theorem lineFeed_notMem_headerLine (r : Report) : ∀ s ∈ r.sections, '\n' ∉ headerLine s.1 := by
  have hall : ∀ header ∈ headers ++ [failuresHeader], '\n' ∉ header.toList := by
    simp [headers, failuresHeader]
  intro s hs
  have hline : headerLine s.1 ∈ r.sections.map fun s => headerLine s.1 :=
    List.mem_map.2 ⟨s, hs, rfl⟩
  rw [headerLine_sections] at hline
  obtain ⟨header, hheader, heq⟩ := List.mem_map.1 hline
  have hsub : header ∈ headers ++ [failuresHeader] := by
    rcases List.mem_append.1 hheader with hten | hlast
    · exact List.mem_append_left _ hten
    · split at hlast
      · cases hlast
      · exact List.mem_append_right _ hlast
  exact heq ▸ hall header hsub

theorem failureLine_eq : failureLine = Failure.text := by
  funext f
  obtain ⟨step, error⟩ := f
  cases step <;> cases error <;> rfl

theorem bodies_sections (r : Report) : r.sections.map Prod.snd = r.bodies := by
  unfold sections bodies
  rw [failureLine_eq, List.map_append]
  congr 1
  cases r.failures <;> rfl

/-- The text ends with a line feed. Of its lines those that do not start with two tabs are the
headers in their order. Nothing stands before the first header, and behind each the lines of its
body, two tabs before each. -/
theorem render_reads_back (r : Report) : ∃ text : List (List Char),
    r.render.toList.getLast? = some '\n' ∧
    r.render.toList.splitOn '\n' = text ++ [[]] ∧
    text.filter isHeader =
      (headers ++ if r.failures = [] then [] else [failuresHeader]).map String.toList ∧
    (text.splitOnP isHeader).map (List.map (List.drop 2)) =
      [] :: r.bodies.map fun body => fedLines body.toList := by
  refine ⟨textLines r.sections, ?_, ?_, ?_, ?_⟩
  · rw [render_toList]
    exact getLast?_ended (by simp [textLines, sections])
  · rw [render_toList, splitOn_ended (lineFeed_notMem_textLines (lineFeed_notMem_headerLine r))]
  · rw [filter_textLines, headerLine_sections]
  · have hsplit := splitOnP_textLines r.sections [] (by simp)
    rw [List.nil_append] at hsplit
    simp [hsplit, bodyLine, ← bodies_sections, ← lines_toList]

/-- A report whose query, client and error look like the report's own text. -/
def forged : Report where
  fingerprint :=
    { normalized := "SELECT 1\r\n---- Query id ----------------------\n\t\t7\n\n"
      digest := ⟨List.replicate 16 171, rfl⟩
      queryId := 4294967295 }
  planId := 0
  milliseconds := 1.5
  client := "\t\tpsql\r\r\n---- Hints -------------------------"
  directives :=
    { scan := "SEQSCAN(a) "
      join := ""
      leading := "LEADING( a )"
      rows := ""
      totalDiff := 0
      joinCount := 0 }
  prior := ""
  stored? := none
  historyId? := none
  failures :=
    [⟨.loadHints, .database "closed\n---- Join cnt ----------------------"⟩,
      ⟨.recordRaw, .schemaMissing "raw_queries"⟩]

theorem render_reads_back_forged : ∃ text : List (List Char),
    forged.render.toList.splitOn '\n' = text ++ [[]] ∧
    text.filter isHeader = (headers ++ [failuresHeader]).map String.toList ∧
    (text.splitOnP isHeader).map (List.map (List.drop 2)) =
      [[],
        ["SELECT 1", "---- Query id ----------------------", "\t\t7", ""],
        ["4294967295"],
        ["0"],
        ["abababababababababababababababab"],
        ["1.500"],
        ["SEQSCAN(a) ", "", "LEADING( a )"],
        [],
        ["0"],
        ["0"],
        ["\t\tpsql\r", "---- Hints -------------------------"],
        ["load hints: 数据库错误: closed", "---- Join cnt ----------------------",
          "raw_queries: 仓库表不存在: raw_queries"]].map (List.map String.toList) := by
  obtain ⟨text, -, hsplit, hheaders, hbodies⟩ := render_reads_back forged
  refine ⟨text, hsplit, ?_, ?_⟩
  · rw [hheaders]
    rfl
  · rw [hbodies]
    decide +kernel

end PlanFeedback.Feedback.Report
