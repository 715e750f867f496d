import AgentDocs.Markup.Frontmatter
import AgentDocs.Markup.Header
import AgentDocs.Proofs.Effect
import AgentDocs.Proofs.Markup.Blocks

/-! # The body below a header block

A header block takes up whole lines at the top of a document: its header lines, its delimiters and
blank lines. The body is what stands below them, and all readers of a document find the same one. -/
namespace AgentDocs.Markup
open Text

/-! ## Cutting a text between two lines -/

/-- Behind a line stands a text of its own, unless the line is the last one. -/
theorem segments_of_cons {text s : List Char} {rest : List (List Char)}
    (h : segments text = s :: rest) :
    segments rest.flatten = rest ∧ (rest = [] ∨ s.getLast? = some '\n') := by
  induction text generalizing s with
  | nil => cases h
  | cons c cs ih =>
    rw [segments] at h
    split at h
    · rename_i hc
      cases h
      exact ⟨by rw [flatten_segments], .inr (by rw [hc]; rfl)⟩
    · cases hcs : segments cs with
      | nil =>
        rw [hcs] at h
        cases h
        exact ⟨rfl, .inl rfl⟩
      | cons line rest =>
        rw [hcs] at h
        cases h
        refine (ih hcs).imp_right (Or.imp_right fun hline => ?_)
        rw [List.getLast?_cons, hline]
        rfl

/-- Below some lines of a text stand the other lines. -/
theorem segments_of_append {text : List Char} {front below : List (List Char)}
    (h : segments text = front ++ below) :
    segments below.flatten = below ∧ (below = [] ∨ ∀ s ∈ front, s.getLast? = some '\n') := by
  induction front generalizing text with
  | nil =>
    have htext := flatten_segments text
    rw [h, List.nil_append] at htext
    exact ⟨by rw [htext, h, List.nil_append], .inr (List.forall_mem_nil _)⟩
  | cons s front ih =>
    obtain ⟨hrest, hs⟩ := segments_of_cons h
    refine (ih hrest).imp_right fun hfront => ?_
    rcases hfront with rfl | hfront
    · exact .inl rfl
    · rcases hs with hnil | hs
      · exact .inl (List.append_eq_nil_iff.1 hnil).2
      · exact .inr (List.forall_mem_cons.2 ⟨hs, hfront⟩)

/-! ## The lines of a block -/

/-- What a marked line holds behind its mark. -/
def marked? (s : List Char) : Option (List Char) := after? ['#', '!'] (lineOf s)

/-- Whether some lines at the top of a document are those of a block, with the header lines `lines`:
two rules with the header lines between them, or marked lines and blank lines; blank lines below the
block belong to it. -/
inductive Covers : HeaderForm → List (List Char) → List (List Char) → Prop
  | ruled {opening closing : List Char} {inner blanks : List (List Char)} :
    isRule opening = true → (∀ s ∈ inner, isRule s = false) → isRule closing = true →
    (∀ s ∈ blanks, allBlank s = true) →
    Covers .ruled (inner.map lineOf) (opening :: inner ++ closing :: blanks)
  | marked {front : List (List Char)} : front.filterMap marked? ≠ [] →
    (∀ s ∈ front, allBlank s = true ∨ (marked? s).isSome = true) →
    Covers .marked (front.filterMap marked?) front

theorem Covers.ne_nil {form : HeaderForm} {lines front : List (List Char)}
    (h : Covers form lines front) : front ≠ [] := by
  cases h with
  | ruled => exact List.cons_ne_nil _ _
  | marked hlines =>
    rintro rfl
    exact hlines rfl

/-- Whether a document begins with a complete block. -/
def HasBlock (document : List Char) : Prop :=
  match segments document with
  | [] => False
  | first :: rest =>
    if isRule first then ∃ s ∈ rest, isRule s = true else beginsMarked document = true

theorem marked?_of_allBlank {s : List Char} (h : allBlank s = true) : marked? s = none := by
  refine Option.eq_none_iff_forall_ne_some.2 fun line hline => ?_
  have hmem : '#' ∈ lineOf s := by
    rw [after?_eq_some_iff.1 hline]
    exact List.mem_cons_self
  exact absurd (List.all_eq_true.1 h '#' ((isPrefix_dropTailWhile _ s).subset hmem)) (by decide)

/-- Blank lines below marked lines hold no header. -/
theorem covers_marked {front blanks : List (List Char)} (hne : front.filterMap marked? ≠ [])
    (hfront : ∀ s ∈ front, allBlank s = true ∨ (marked? s).isSome = true)
    (hblanks : ∀ s ∈ blanks, allBlank s = true) :
    Covers .marked (front.filterMap marked?) (front ++ blanks) := by
  have hfilter : (front ++ blanks).filterMap marked? = front.filterMap marked? := by
    have hnil : blanks.filterMap marked? = [] :=
      List.filterMap_eq_nil_iff.2 fun s hs => marked?_of_allBlank (hblanks s hs)
    rw [List.filterMap_append, hnil, List.append_nil]
  rw [← hfilter] at hne ⊢
  refine .marked hne fun s hs => ?_
  exact (List.mem_append.1 hs).elim (hfront s) fun hs => .inl (hblanks s hs)

theorem ruledLines?_eq_none_iff {ss : List (List Char)} :
    ruledLines? ss = none ↔ ∀ s ∈ ss, isRule s = false := by
  induction ss with
  | nil => simp [ruledLines?]
  | cons s ss ih =>
    rw [List.forall_mem_cons, ← ih, ruledLines?]
    cases isRule s <;> simp

theorem eq_of_ruledLines? {ss lines rest : List (List Char)}
    (h : ruledLines? ss = some (lines, rest)) :
    ∃ inner closing, ss = inner ++ closing :: rest ∧ (∀ s ∈ inner, isRule s = false) ∧
      isRule closing = true ∧ lines = inner.map lineOf := by
  induction ss generalizing lines with
  | nil => cases h
  | cons s ss ih =>
    rw [ruledLines?] at h
    split at h
    · rename_i hs
      cases h
      exact ⟨[], s, rfl, List.forall_mem_nil _, hs, rfl⟩
    · rename_i hs
      obtain ⟨⟨lines', rest'⟩, hlines, heq⟩ := Option.map_eq_some_iff.1 h
      cases heq
      obtain ⟨inner, closing, rfl, hinner, hclosing, rfl⟩ := ih hlines
      exact ⟨s :: inner, closing, rfl,
        List.forall_mem_cons.2 ⟨Bool.eq_false_iff.2 hs, hinner⟩, hclosing, rfl⟩

theorem isSome_marked? (s : List Char) : (marked? s).isSome = beginsWith ['#', '!'] s := by
  refine Bool.eq_iff_iff.2 ⟨ beginsWith_of_prefix (isPrefix_dropTailWhile _ s), fun h => ?_⟩
  obtain ⟨rest, hrest⟩ := Option.isSome_iff_exists.1 h
  have hline : lineOf s = ['#', '!'] ++ dropTailWhile (fun c => c == '\n' || c == '\r') rest := by
    rw [after?_eq_some_iff.1 hrest]
    exact dropTailWhile_append_cons (c := '!') (by decide) ['#'] rest
  exact Option.isSome_iff_exists.2 ⟨_, after?_eq_some_iff.2 hline⟩

/-- Whether the next line that is not blank is marked. -/
def comesMarked (ss : List (List Char)) : Bool :=
  (ss.find? fun line => !allBlank line).any (beginsWith ['#', '!'])

/-- Lines `front` up to the last marked one, which are read, and other lines below them. -/
structure MarkedAbove (front rest : List (List Char)) : Prop where
  read : markedLines (front ++ rest) = (front.filterMap marked?, rest)
  ne_nil : front.filterMap marked? ≠ []
  lines : ∀ s ∈ front, allBlank s = true ∨ (marked? s).isSome = true
  ends : comesMarked rest = false

namespace MarkedAbove
variable {s line : List Char} {front rest : List (List Char)}

theorem last (hs : ¬allBlank s = true) (hline : marked? s = some line)
    (hrest : comesMarked rest = false) : MarkedAbove [s] rest := by
  have hfilter : [s].filterMap marked? = [line] := by simp [hline]
  have hread : after? ['#', '!'] (lineOf s) = some line := hline
  refine ⟨?_, hfilter ▸ List.cons_ne_nil _ _, ?_, hrest⟩
  · rw [hfilter, List.singleton_append, markedLines, if_neg hs, hread, markedLines_of_not hrest]
  · exact List.forall_mem_singleton.2 (.inr (by rw [hline]; rfl))

/-- A blank line above a marked one belongs to the block. -/
theorem blank (h : MarkedAbove front rest) (hs : allBlank s = true) :
    MarkedAbove (s :: front) rest := by
  have hfilter : (s :: front).filterMap marked? = front.filterMap marked? := by
    rw [List.filterMap_cons, marked?_of_allBlank hs]
  obtain ⟨first, more, hlines⟩ := List.exists_cons_of_ne_nil h.ne_nil
  refine ⟨?_, hfilter ▸ h.ne_nil, List.forall_mem_cons.2 ⟨.inl hs, h.lines⟩, h.ends⟩
  rw [hfilter, List.cons_append, markedLines, if_pos hs, h.read, hlines]

theorem marked (h : MarkedAbove front rest) (hs : ¬allBlank s = true)
    (hline : marked? s = some line) : MarkedAbove (s :: front) rest := by
  have hfilter : (s :: front).filterMap marked? = line :: front.filterMap marked? := by
    rw [List.filterMap_cons, hline]
  have hread : after? ['#', '!'] (lineOf s) = some line := hline
  have hmark : (marked? s).isSome = true := by rw [hline]; rfl
  obtain ⟨first, more, hlines⟩ := List.exists_cons_of_ne_nil h.ne_nil
  refine ⟨?_, hfilter ▸ List.cons_ne_nil _ _, List.forall_mem_cons.2 ⟨.inr hmark, h.lines⟩, h.ends⟩
  rw [hfilter, List.cons_append, markedLines, if_neg hs, hread, h.read, hlines]

end MarkedAbove

/-- Where a marked line comes next, marked lines are read. -/
theorem exists_markedAbove {ss : List (List Char)} (h : comesMarked ss = true) :
    ∃ front rest, ss = front ++ rest ∧ MarkedAbove front rest := by
  induction ss with
  | nil => cases h
  | cons s ss ih =>
    by_cases hs : allBlank s = true
    · have hnext : comesMarked ss = true := by simpa [comesMarked, List.find?, hs] using h
      obtain ⟨front, rest, rfl, habove⟩ := ih hnext
      exact ⟨s :: front, rest, rfl, habove.blank hs⟩
    · have hmark : (marked? s).isSome = true := by
        rw [isSome_marked?]
        simpa [comesMarked, List.find?, hs] using h
      obtain ⟨line, hline⟩ := Option.isSome_iff_exists.1 hmark
      cases hnext : comesMarked ss with
      | false => exact ⟨[s], ss, rfl, .last hs hline hnext⟩
      | true =>
        obtain ⟨front, rest, rfl, habove⟩ := ih hnext
        exact ⟨s :: front, rest, rfl, habove.marked hs hline⟩

/-! ## What stands above a body -/

/-- The lines `front` of a document are those of its block, and below them stands the body. -/
structure HeaderBlock.StandsOver (block : HeaderBlock) (document : List Char)
    (front : List (List Char)) : Prop where
  lines : segments document = front ++ segments block.body
  covers : Covers block.form block.lines front
  /-- No line is cut: only at the end of the document a line may lack its line feed. -/
  whole : block.body = [] ∨ ∀ s ∈ front, s.getLast? = some '\n'
  begins : ∀ s ∈ (segments block.body).head?, allBlank s = false
  /-- No marked line is left over. -/
  ends : block.form = .marked → beginsMarked block.body = false

/-- Blank lines between a block and its body belong to the block. -/
theorem standsOver_of_cut {document : List Char} {form : HeaderForm}
    {lines front rest : List (List Char)} (hcut : segments document = front ++ rest)
    (hcovers : ∀ blanks : List (List Char), (∀ s ∈ blanks, allBlank s = true) →
      Covers form lines (front ++ blanks))
    (hends : form = .marked → comesMarked rest = false) :
    HeaderBlock.StandsOver ⟨form, lines, bodyOf rest⟩ document
      (front ++ rest.takeWhile allBlank) := by
  have hsplit : segments document
      = (front ++ rest.takeWhile allBlank) ++ rest.dropWhile allBlank := by
    rw [hcut, List.append_assoc, List.takeWhile_append_dropWhile]
  obtain ⟨hbody, hwhole⟩ := segments_of_append hsplit
  have hbelow : segments (bodyOf rest) = rest.dropWhile allBlank := hbody
  refine ⟨hbelow ▸ hsplit, hcovers _ fun s hs => List.mem_takeWhile_imp hs, ?_, ?_, fun hform => ?_⟩
  · exact hwhole.imp_left fun hnil => show (rest.dropWhile allBlank).flatten = [] by rw [hnil]; rfl
  · rw [hbelow]
    intro s hs
    have hhead := List.head?_dropWhile_not allBlank rest
    rw [Option.mem_def.1 hs] at hhead
    simpa using hhead
  · have hblank : (rest.takeWhile allBlank).find? (fun line => !allBlank line) = none :=
      List.find?_eq_none.2 fun s hs => by simp [List.mem_takeWhile_imp hs]
    have hnext := hends hform
    rw [comesMarked, ← List.takeWhile_append_dropWhile (p := allBlank) (l := rest),
      List.find?_append, hblank, Option.none_or] at hnext
    rw [beginsMarked, hbelow]
    exact hnext

theorem hasBlock_of_ruled {document : List Char} {first : List Char} {rest : List (List Char)}
    (h : segments document = first :: rest) (hfirst : isRule first = true) :
    HasBlock document ↔ ∃ s ∈ rest, isRule s = true := by
  simp [HasBlock, h, hfirst]

theorem hasBlock_of_not_ruled {document : List Char} {first : List Char} {rest : List (List Char)}
    (h : segments document = first :: rest) (hfirst : isRule first = false) :
    HasBlock document ↔ comesMarked (first :: rest) = true := by
  simp [HasBlock, h, hfirst, beginsMarked, comesMarked]

/-- Either there is no complete block, or the block that is found stands over its body. -/
theorem headerBlock?_cases (document : List Char) :
    (¬HasBlock document ∧ headerBlock? document = none) ∨
      HasBlock document ∧ ∃ block front, headerBlock? document = some block ∧
        block.StandsOver document front := by
  unfold headerBlock?
  cases hsegments : segments document with
  | nil => exact .inl ⟨by simp [HasBlock, hsegments], rfl⟩
  | cons first rest =>
    dsimp only
    cases hfirst : isRule first with
    | true =>
      rw [hasBlock_of_ruled hsegments hfirst, if_pos rfl]
      cases hlines : ruledLines? rest with
      | none =>
        refine .inl ⟨fun ⟨s, hs, hrule⟩ => ?_, rfl⟩
        rw [ruledLines?_eq_none_iff.1 hlines s hs] at hrule
        cases hrule
      | some found =>
        obtain ⟨lines, below⟩ := found
        obtain ⟨inner, closing, rfl, hinner, hclosing, rfl⟩ := eq_of_ruledLines? hlines
        have hcut : segments document = (first :: inner ++ [closing]) ++ below := by
          simp [hsegments]
        refine .inr ⟨⟨closing, by simp, hclosing⟩, _, _, rfl,
          standsOver_of_cut hcut (fun blanks hblanks => ?_) nofun⟩
        rw [List.append_assoc]
        exact .ruled hfirst hinner hclosing hblanks
    | false =>
      rw [hasBlock_of_not_ruled hsegments hfirst, if_neg Bool.false_ne_true]
      cases hcomes : comesMarked (first :: rest) with
      | false => exact .inl ⟨nofun, by rw [markedLines_of_not hcomes]⟩
      | true =>
        obtain ⟨front, below, hcut, habove⟩ := exists_markedAbove hcomes
        obtain ⟨line, more, hlines⟩ := List.exists_cons_of_ne_nil habove.ne_nil
        rw [hcut, habove.read, hlines]
        refine .inr ⟨rfl, _, _, rfl, standsOver_of_cut (hsegments.trans hcut)
          (fun blanks hblanks => ?_) fun _ => habove.ends⟩
        rw [← hlines]
        exact covers_marked habove.ne_nil habove.lines hblanks

/-! ## One body for all readers -/

theorem body_of_readHeaders {document : List Char} {headed : Headed}
    (h : readHeaders document = .ok headed) : headed.body = stripHeaders document := by
  unfold readHeaders at h
  unfold stripHeaders
  cases hblock : headerBlock? document with
  | none =>
    rw [hblock] at h
    cases h
    rfl
  | some block =>
    rw [hblock] at h
    obtain ⟨headers, _, h⟩ := Except.exists_of_bind_ok h
    cases h
    rfl

/-- Frontmatter is found where the block is ruled, with the body of the block. -/
theorem readFrontmatter_of_block {document : List Char} {block : HeaderBlock}
    (hblock : headerBlock? document = some block) {found : Option Frontmatter}
    (h : readFrontmatter document = .ok found) :
    (found.isSome ↔ block.form = .ruled) ∧ ∀ f ∈ found, f.body = block.body := by
  obtain ⟨form, lines, body⟩ := block
  unfold readFrontmatter at h
  rw [hblock] at h
  cases form with
  | ruled =>
    obtain ⟨data, _, h⟩ := Except.exists_of_bind_ok h
    cases h
    simp
  | marked =>
    cases h
    simp

/-- All that is read of a document has the same body. It stands below the whole lines of the header
block, and does not begin with a blank line; without a complete block it is the document, and then
there are no headers and no frontmatter. -/
theorem bodies_of_document (document : List Char) :
    let body := stripHeaders document
    (∀ headed, readHeaders document = .ok headed → headed.body = body) ∧
    (∀ found, readFrontmatter document = .ok found → ∀ f ∈ found, f.body = body) ∧
    (¬HasBlock document → headerBlock? document = none ∧ body = document ∧
      readHeaders document = .ok ⟨[], document⟩ ∧ readFrontmatter document = .ok none) ∧
    (HasBlock document → ∃ block front, headerBlock? document = some block ∧ block.body = body ∧
      (∀ found, readFrontmatter document = .ok found → (found.isSome ↔ block.form = .ruled)) ∧
      front ≠ [] ∧ front.flatten ++ body = document ∧ block.StandsOver document front) := by
  intro body
  refine ⟨fun headed => body_of_readHeaders, ?_⟩
  obtain ⟨hno, hnone⟩ | ⟨hhas, block, front, hsome, hstands⟩ := headerBlock?_cases document
  · have hbody : body = document := by simp only [body, stripHeaders, hnone]
    have hheaders : readHeaders document = .ok ⟨[], document⟩ := by rw [readHeaders, hnone]
    have hfrontmatter : readFrontmatter document = .ok none := by rw [readFrontmatter, hnone]
    refine ⟨fun found h => ?_, fun _ => ⟨hnone, hbody, hheaders, hfrontmatter⟩,
      fun hhas => absurd hhas hno⟩
    rw [hfrontmatter] at h
    cases h
    exact fun f hf => absurd hf (Option.not_mem_none f)
  · have hbody : block.body = body := by simp only [body, stripHeaders, hsome]
    have hdocument : front.flatten ++ block.body = document := by
      -- the lines of a document are the document
      rw [← flatten_segments document, hstands.lines, List.flatten_append, flatten_segments]
    rw [← hbody]
    exact ⟨fun found h => (readFrontmatter_of_block hsome h).2, fun hno => absurd hhas hno,
      fun _ => ⟨block, front, hsome, rfl, fun found h => (readFrontmatter_of_block hsome h).1,
        hstands.covers.ne_nil, hdocument, hstands⟩⟩

/-- Blank lines between marked lines and below them, one with a no-break space; the body begins with
a blank but not with a blank line. -/
example : headerBlock? "\n#! a: 1\r\n\n#!b\n \u00a0\n\n  Text\n".toList
    = some ⟨.marked, [" a: 1".toList, "b".toList], "  Text\n".toList⟩ := by decide

end AgentDocs.Markup
