import AgentDocs.Markup.Header
import AgentDocs.Proofs.Text.Fields
import AgentDocs.Proofs.Text.Trim

/-! # Header blocks as they are written

Header lines may be written between two rules or behind marks. Where no line is itself a rule and
the text below does not begin with a marked line, the block that is found has the same lines and the
same body either way, so the headers are the same too. -/
namespace AgentDocs.Markup
open Text

/-! ## Lines -/

/-- Lines with a line feed behind each. -/
def terminated (lines : List (List Char)) : List (List Char) := lines.map (· ++ ['\n'])

theorem segments_line {line : List Char} (h : '\n' ∉ line) (rest : List Char) :
    segments (line ++ '\n' :: rest) = (line ++ ['\n']) :: segments rest := by
  induction line with
  | nil => simp [segments]
  | cons c line ih =>
    rw [List.mem_cons, not_or] at h
    simp [segments, Ne.symm h.1, ih h.2]

/-- Text that is written line by line falls into its lines. -/
theorem segments_terminated {lines : List (List Char)} (h : ∀ line ∈ lines, '\n' ∉ line)
    (rest : List Char) :
    segments ((terminated lines).flatten ++ rest) = terminated lines ++ segments rest := by
  induction lines with
  | nil => rfl
  | cons line lines ih =>
    obtain ⟨hline, hlines⟩ := List.forall_mem_cons.1 h
    have htext : (terminated (line :: lines)).flatten ++ rest
        = line ++ '\n' :: ((terminated lines).flatten ++ rest) := by simp [terminated]
    rw [htext, segments_line hline, ih hlines]
    rfl

theorem isRule_terminated (line : List Char) :
    isRule (line ++ ['\n']) = (trim line == ['-', '-', '-']) := by
  rw [isRule, trim_concat (by decide)]

theorem lineOf_marked (line : List Char) :
    lineOf ('#' :: '!' :: line ++ ['\n']) = '#' :: '!' :: lineOf (line ++ ['\n']) :=
  dropTailWhile_append_cons (c := '!') (by decide) ['#'] (line ++ ['\n'])

/-! ## Blocks between rules -/

theorem ruledLines?_terminated {lines : List (List Char)}
    (h : ∀ line ∈ lines, trim line ≠ ['-', '-', '-']) {rule : List Char} (hrule : isRule rule = true)
    (rest : List (List Char)) :
    ruledLines? (terminated lines ++ rule :: rest)
      = some ((terminated lines).map lineOf, rest) := by
  induction lines with
  | nil => simp [terminated, ruledLines?, hrule]
  | cons line lines ih =>
    obtain ⟨hline, hlines⟩ := List.forall_mem_cons.1 h
    have hfirst : isRule (line ++ ['\n']) = false := by simpa [isRule_terminated] using hline
    have hrest := ih hlines
    simp only [terminated] at hrest
    simp [terminated, ruledLines?, hfirst, hrest]

/-- A document whose header lines stand between two rules. -/
def ruledDocument (lines : List (List Char)) (body : List Char) : List Char :=
  ['-', '-', '-', '\n'] ++ (terminated lines).flatten ++ ['-', '-', '-', '\n'] ++ body

theorem headerBlock?_ruledDocument {lines : List (List Char)}
    (h : ∀ line ∈ lines, '\n' ∉ line ∧ trim line ≠ ['-', '-', '-']) (body : List Char) :
    headerBlock? (ruledDocument lines body)
      = some ⟨.ruled, (terminated lines).map lineOf, bodyOf (segments body)⟩ := by
  have hsegments : segments (ruledDocument lines body)
      = ['-', '-', '-', '\n'] :: (terminated lines ++ ['-', '-', '-', '\n'] :: segments body) := by
    have hbelow : ['-', '-', '-', '\n'] ++ body = (terminated [['-', '-', '-']]).flatten ++ body := rfl
    rw [ruledDocument, List.append_assoc, List.append_assoc, hbelow]
    have hfirst := @segments_line ['-', '-', '-'] (by decide)
      ((terminated lines).flatten ++ ((terminated [['-', '-', '-']]).flatten ++ body))
    rw [segments_terminated fun line hline => (h line hline).1,
      segments_terminated (by decide)] at hfirst
    exact hfirst
  have hrule : isRule ['-', '-', '-', '\n'] = true := by decide
  have hlines := ruledLines?_terminated (fun line hline => (h line hline).2) hrule (segments body)
  simp [headerBlock?, hsegments, hrule, hlines]

/-! ## Blocks of marked lines -/

/-- Whether the first line of a text that is not blank is marked. -/
def beginsMarked (text : List Char) : Bool :=
  ((segments text).find? fun line => !allBlank line).any (beginsWith ['#', '!'])

theorem beginsWith_of_prefix {start line text : List Char} (h : line <+: text)
    (hline : beginsWith start line = true) : beginsWith start text = true :=
  beginsWith_iff.2 ((beginsWith_iff.1 hline).trans h)

/-- Where no marked line comes next there are no marked lines, whatever comes later. -/
theorem markedLines_of_not {ss : List (List Char)}
    (h : (ss.find? fun line => !allBlank line).any (beginsWith ['#', '!']) = false) :
    markedLines ss = ([], ss) := by
  induction ss with
  | nil => rfl
  | cons s ss ih =>
    by_cases hs : allBlank s = true
    · have hrest := ih (by simpa [List.find?, hs] using h)
      simp [markedLines, hs, hrest]
    · have hmark : beginsWith ['#', '!'] (lineOf s) = false := by
        refine Bool.eq_false_iff.2 fun hmarked => ?_
        simp [hs, beginsWith_of_prefix (isPrefix_dropTailWhile _ s) hmarked] at h
      have hnone : after? ['#', '!'] (lineOf s) = none := by simpa [beginsWith] using hmark
      simp [markedLines, hs, hnone]

/-- Lines with a mark in front of each. -/
def marked (lines : List (List Char)) : List (List Char) := lines.map ('#' :: '!' :: ·)

theorem markedLines_marked {lines : List (List Char)} (hne : lines ≠ []) {rest : List (List Char)}
    (hrest : markedLines rest = ([], rest)) :
    markedLines (terminated (marked lines) ++ rest) = ((terminated lines).map lineOf, rest) := by
  have hblank : ∀ line : List Char, allBlank ('#' :: '!' :: line ++ ['\n']) = false := fun _ => rfl
  induction lines with
  | nil => exact absurd rfl hne
  | cons line lines ih =>
    have hmark : after? ['#', '!'] (lineOf ('#' :: '!' :: line ++ ['\n']))
        = some (lineOf (line ++ ['\n'])) := by
      rw [lineOf_marked]
      exact after?_eq_some_iff.2 rfl
    change markedLines (('#' :: '!' :: line ++ ['\n']) :: (terminated (marked lines) ++ rest)) = _
    rw [markedLines, hblank, hmark]
    cases lines with
    | nil =>
      have hnone : markedLines (terminated (marked []) ++ rest) = ([], rest) := hrest
      simp only [hnone]
      rfl
    | cons next lines =>
      rw [ih (List.cons_ne_nil _ _)]
      rfl

/-- A document whose header lines are marked. -/
def markedDocument (lines : List (List Char)) (body : List Char) : List Char :=
  (terminated (marked lines)).flatten ++ body

theorem headerBlock?_markedDocument {lines : List (List Char)} (hne : lines ≠ [])
    (h : ∀ line ∈ lines, '\n' ∉ line) {body : List Char} (hbody : beginsMarked body = false) :
    headerBlock? (markedDocument lines body)
      = some ⟨.marked, (terminated lines).map lineOf, bodyOf (segments body)⟩ := by
  have hmarked : ∀ line ∈ marked lines, '\n' ∉ line := by simpa [marked] using h
  have hlines := markedLines_marked hne (markedLines_of_not hbody)
  rw [headerBlock?, markedDocument, segments_terminated hmarked]
  obtain ⟨first, lines, rfl⟩ := List.exists_cons_of_ne_nil hne
  have htrim : trim ('#' :: '!' :: first) = '#' :: '!' :: trimRight first :=
    dropTailWhile_append_cons (c := '!') (by decide) ['#'] first
  have hrule : isRule ('#' :: '!' :: first ++ ['\n']) = false := by
    rw [isRule_terminated, htrim]
    rfl
  have hfirst : terminated (marked (first :: lines)) ++ segments body
      = ('#' :: '!' :: first ++ ['\n']) :: (terminated (marked lines) ++ segments body) := rfl
  rw [hfirst] at hlines ⊢
  simp only [hrule, hlines, Bool.false_eq_true, if_false]
  rfl

/-! ## Headers in both forms -/

/-- Headers read the same in both forms, and so does the body: a block is found either way. -/
theorem readHeaders_forms {lines : List (List Char)} (hne : lines ≠ [])
    (hlines : ∀ line ∈ lines, '\n' ∉ line ∧ trim line ≠ ['-', '-', '-']) {body : List Char}
    (hbody : beginsMarked body = false) :
    (∃ found below, headerBlock? (ruledDocument lines body) = some ⟨.ruled, found, below⟩ ∧
        headerBlock? (markedDocument lines body) = some ⟨.marked, found, below⟩) ∧
      readHeaders (ruledDocument lines body) = readHeaders (markedDocument lines body) := by
  have hruled := headerBlock?_ruledDocument hlines body
  have hmarked :=
    headerBlock?_markedDocument hne (fun line hline => (hlines line hline).1) hbody
  refine ⟨⟨_, _, hruled, hmarked⟩, ?_⟩
  simp only [readHeaders, hruled, hmarked]

/-- A blank line, an indexed name, a variable and a list of values; below them a line that is marked
but for the blank in front of it. -/
theorem readHeaders_mixed_lines :
    let lines := ["$dir: out", "", " target[0] : $dir/a.md\r", "target: [\"b.md\", null]"].map
      String.toList
    let body := "\n #! x\nText".toList
    (lines ≠ [] ∧ (∀ line ∈ lines, '\n' ∉ line ∧ trim line ≠ ['-', '-', '-']) ∧
        beginsMarked body = false) ∧
      readHeaders (ruledDocument lines body) = readHeaders (markedDocument lines body) :=
  ⟨by decide +kernel, (readHeaders_forms (by decide +kernel) (by decide +kernel) (by decide +kernel)).2⟩

end AgentDocs.Markup
