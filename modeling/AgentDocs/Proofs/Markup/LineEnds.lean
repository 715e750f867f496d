import AgentDocs.Proofs.Markup.Body

/-! # Line feeds and carriage returns

A carriage return in front of each line feed is part of the ending of a line, so every line of a
document reads as before. The block is found in the same lines, and only the body below it is
another text: it is the body with the carriage returns. -/
namespace AgentDocs.Markup
open Text

/-- A text with a carriage return in front of each line feed. -/
def crlf (cs : List Char) : List Char :=
  cs.flatMap fun c => if c = '\n' then ['\r', '\n'] else [c]

theorem crlf_append (front cs : List Char) : crlf (front ++ cs) = crlf front ++ crlf cs :=
  List.flatMap_append

theorem crlf_of_notMem {line : List Char} (h : '\n' ∉ line) : crlf line = line := by
  induction line with
  | nil => rfl
  | cons c line ih =>
    rw [List.mem_cons, not_or] at h
    show (if c = '\n' then ['\r', '\n'] else [c]) ++ crlf line = c :: line
    rw [if_neg (Ne.symm h.1), ih h.2]
    rfl

theorem crlf_flatten (ss : List (List Char)) : crlf ss.flatten = (ss.map crlf).flatten := by
  induction ss with
  | nil => rfl
  | cons s ss ih => rw [List.flatten_cons, crlf_append, ih, List.map_cons, List.flatten_cons]

/-! ## One line -/

/-- The carriage returns do not move the ends of the lines. -/
theorem segments_crlf (cs : List Char) : segments (crlf cs) = (segments cs).map crlf := by
  induction cs with
  | nil => rfl
  | cons c cs ih =>
    by_cases hc : c = '\n'
    · have htext : crlf (c :: cs) = '\r' :: '\n' :: crlf cs := by rw [hc]; rfl
      have hend : segments ('\n' :: crlf cs) = ['\n'] :: segments (crlf cs) := rfl
      rw [htext, segments, if_neg (by decide), hend, ih, segments, if_pos hc, hc]
      rfl
    · have htext (cs : List Char) : crlf (c :: cs) = c :: crlf cs := by
        show (if c = '\n' then ['\r', '\n'] else [c]) ++ crlf cs = c :: crlf cs
        rw [if_neg hc]
        rfl
      rw [htext, segments, if_neg hc, ih, segments, if_neg hc]
      cases segments cs with
      | nil => rw [List.map_nil, List.map_singleton, htext]; rfl
      | cons s ss => rw [List.map_cons, List.map_cons, htext]

/-- Only the last character of a line can be a line feed. -/
theorem line_of_mem_segments {text s : List Char} (h : s ∈ segments text) :
    ∃ line, '\n' ∉ line ∧ (s = line ∨ s = line ++ ['\n']) := by
  induction text generalizing s with
  | nil => cases h
  | cons c cs ih =>
    rw [segments] at h
    split at h
    · rename_i hc
      obtain rfl | hs := List.mem_cons.1 h
      · exact ⟨[], List.not_mem_nil, .inr (by rw [hc]; rfl)⟩
      · exact ih hs
    · rename_i hc
      cases hcs : segments cs with
      | nil =>
        rw [hcs] at h
        have hs : s = [c] := List.mem_singleton.1 h
        exact ⟨[c], by simpa using Ne.symm hc, .inl hs⟩
      | cons first rest =>
        rw [hcs] at h ih
        obtain rfl | hs := List.mem_cons.1 h
        · obtain ⟨line, hline, hfirst⟩ := ih List.mem_cons_self
          refine ⟨c :: line, by simpa [hline] using Ne.symm hc, ?_⟩
          exact hfirst.imp (congrArg (c :: ·)) (congrArg (c :: ·))
        · exact ih (List.mem_cons_of_mem _ hs)

/-- Whether a line is read the same with a carriage return in front of its line feed. -/
structure Keeps (s : List Char) : Prop where
  text : lineOf (crlf s) = lineOf s
  rule : isRule (crlf s) = isRule s

theorem keeps_of_mem_segments {text s : List Char} (h : s ∈ segments text) : Keeps s := by
  obtain ⟨line, hline, rfl | rfl⟩ := line_of_mem_segments h
  · have hsame := crlf_of_notMem hline
    exact ⟨by rw [hsame], by rw [hsame]⟩
  · have hends : crlf (line ++ ['\n']) = line ++ ['\r'] ++ ['\n'] := by
      rw [crlf_append, crlf_of_notMem hline, List.append_assoc]
      rfl
    constructor
    · rw [hends, lineOf, dropTailWhile_concat_of_pos rfl, dropTailWhile_concat_of_pos rfl, lineOf,
        dropTailWhile_concat_of_pos rfl]
    · rw [hends, isRule, trim_concat rfl, trim_concat rfl, isRule, trim_concat rfl]

/-- Both characters that end a line are blank. -/
theorem allBlank_crlf (cs : List Char) : allBlank (crlf cs) = allBlank cs := by
  induction cs with
  | nil => rfl
  | cons c cs ih =>
    have htext : crlf (c :: cs) = (if c = '\n' then ['\r', '\n'] else [c]) ++ crlf cs := rfl
    rw [htext, allBlank, allBlank, List.all_append, List.all_cons]
    refine congrArg₂ _ ?_ ih
    split
    · rename_i hc
      rw [hc]
      decide
    · exact Bool.and_true _

/-! ## The lines of a document -/

section Lines
variable {ss : List (List Char)}

theorem ruledLines?_crlf (h : ∀ s ∈ ss, Keeps s) :
    ruledLines? (ss.map crlf) = (ruledLines? ss).map (Prod.map id (List.map crlf)) := by
  induction ss with
  | nil => rfl
  | cons s ss ih =>
    obtain ⟨hs, hss⟩ := List.forall_mem_cons.1 h
    rw [List.map_cons, ruledLines?, hs.rule, ih hss, hs.text, ruledLines?]
    cases isRule s <;> cases ruledLines? ss <;> rfl

theorem markedLines_crlf (h : ∀ s ∈ ss, Keeps s) :
    markedLines (ss.map crlf) = Prod.map id (List.map crlf) (markedLines ss) := by
  induction ss with
  | nil => rfl
  | cons s ss ih =>
    obtain ⟨hs, hss⟩ := List.forall_mem_cons.1 h
    rw [List.map_cons, markedLines, allBlank_crlf, ih hss, hs.text, markedLines]
    obtain ⟨lines, rest⟩ := markedLines ss
    cases allBlank s <;> cases after? ['#', '!'] (lineOf s) <;> cases lines <;> rfl

theorem bodyOf_crlf (rest : List (List Char)) : bodyOf (rest.map crlf) = crlf (bodyOf rest) := by
  have hblank : allBlank ∘ crlf = allBlank := funext allBlank_crlf
  rw [bodyOf, bodyOf, List.dropWhile_map, hblank, crlf_flatten]

end Lines

/-- The block of a document with the carriage returns has the same form and the same lines. -/
theorem headerBlock?_crlf (document : List Char) :
    headerBlock? (crlf document)
      = (headerBlock? document).map fun block => { block with body := crlf block.body } := by
  have hlines : ∀ s ∈ segments document, Keeps s := fun s => keeps_of_mem_segments
  unfold headerBlock?
  rw [segments_crlf]
  cases hsegments : segments document with
  | nil => rfl
  | cons first rest =>
    rw [hsegments] at hlines
    obtain ⟨hfirst, hrest⟩ := List.forall_mem_cons.1 hlines
    have hmarked := markedLines_crlf hlines
    rw [List.map_cons] at hmarked ⊢
    dsimp only
    rw [hfirst.rule, ruledLines?_crlf hrest, hmarked]
    cases isRule first with
    | true =>
      rw [if_pos rfl, if_pos rfl, Option.map_map, Option.map_map]
      exact congrFun (congrArg Option.map (funext fun found => by simp [bodyOf_crlf])) _
    | false =>
      rw [if_neg Bool.false_ne_true, if_neg Bool.false_ne_true]
      obtain ⟨lines, below⟩ := markedLines (first :: rest)
      cases lines with
      | nil => rfl
      | cons line lines => exact congrArg some (congrArg _ (bodyOf_crlf below))

/-- The body with the carriage returns, and all else that is read of a document as it was. -/
theorem line_endings_read_alike (document : List Char) :
    (headerBlock? (crlf document)).map HeaderBlock.form
        = (headerBlock? document).map HeaderBlock.form ∧
      readHeaders (crlf document)
        = (readHeaders document).map (fun headed => ⟨headed.headers, crlf headed.body⟩) ∧
      readFrontmatter (crlf document)
        = (readFrontmatter document).map (Option.map fun found => ⟨found.data, crlf found.body⟩) ∧
      stripHeaders (crlf document) = crlf (stripHeaders document) := by
  have hblock := headerBlock?_crlf document
  unfold readHeaders readFrontmatter stripHeaders
  rw [hblock]
  cases headerBlock? document with
  | none => exact ⟨rfl, rfl, rfl, rfl⟩
  | some block =>
    obtain ⟨form, lines, body⟩ := block
    refine ⟨rfl, ?_, ?_, rfl⟩
    · dsimp only [Option.map_some]
      cases decodeAll (lines.filterMap Header.ofLine?) <;> rfl
    · cases form with
      | marked => rfl
      | ruled =>
        dsimp only [Option.map_some]
        cases mappingOf (join ['\n'] lines) <;> rfl

end AgentDocs.Markup
