import AgentDocs.Proofs.Effect
import AgentDocs.Proofs.Markup.Scan
import AgentDocs.Proofs.Text.Slice
import Mathlib.Data.List.Induction

/-! # Replacing placeholders

The placeholders that a scan finds cut a text up into pieces, and a replacement puts each text in
the place of its own piece: it looks at the items from the last to the first, and goes no further
than the first failure. -/
namespace AgentDocs
open Text

/-- Answers to calls that are made one after the other, none of which fails. -/
inductive Effect.Answers {σ ε α β : Type} (call : α → Effect σ ε β) : List α → σ → List β → σ → Prop
  | nil (s : σ) : Answers call [] s [] s
  | cons {a : α} {as : List α} {b : β} {bs : List β} {s t u : σ} :
    call a s = (.ok b, t) → Answers call as t bs u → Answers call (a :: as) s (b :: bs) u

namespace Effect.Answers
variable {σ ε α β : Type} {call : α → Effect σ ε β} {as : List α} {bs : List β} {s t : σ}

theorem length_eq (h : Answers call as s bs t) : bs.length = as.length := by
  induction h with
  | nil => rfl
  | cons _ _ ih => rw [List.length_cons, List.length_cons, ih]

/-- All calls are answered, or the calls up to one that fails. -/
theorem total (call : α → Effect σ ε β) (as : List α) (s : σ) :
    (∃ bs t, Answers call as s bs t) ∨
      ∃ called a rest bs u e t, as = called ++ a :: rest ∧ Answers call called s bs u ∧
        call a u = (.error e, t) := by
  induction as generalizing s with
  | nil => exact .inl ⟨[], s, .nil s⟩
  | cons a as ih =>
    cases hcall : call a s with
    | mk result t =>
      cases result with
      | error e => exact .inr ⟨[], a, as, [], s, e, t, rfl, .nil s, hcall⟩
      | ok b =>
        obtain ⟨bs, u, hrest⟩ | ⟨called, a', rest, bs, u, e, t', rfl, hcalled, hfailed⟩ := ih t
        · exact .inl ⟨b :: bs, u, .cons hcall hrest⟩
        · exact .inr ⟨a :: called, a', rest, b :: bs, u, e, t', rfl, .cons hcall hcalled, hfailed⟩

end Effect.Answers

namespace Markup

/-! ## Texts that are cut up -/

/-- An item, with the text between it and the item before, and with its own text. -/
structure Piece (α : Type) where
  gap : List Char
  item : α
  own : List Char

def Piece.map {α β : Type} (f : α → β) (p : Piece α) : Piece β := ⟨p.gap, f p.item, p.own⟩

/-- A text in pieces, and what stands behind the last item. -/
structure Cut (α : Type) where
  pieces : List (Piece α)
  tail : List Char

namespace Cut
variable {α : Type} {span : α → Span}

def items (c : Cut α) : List α := c.pieces.map (·.item)

/-- The text of some pieces. -/
def textOf (pieces : List (Piece α)) : List Char := pieces.flatMap fun p => p.gap ++ p.own

def text (c : Cut α) : List Char := textOf c.pieces ++ c.tail

/-- The text of some pieces with new texts for their items; where there is no new text, an item
keeps its own. -/
def replaced (pieces : List (Piece α)) (news : List (Option (List Char))) : List Char :=
  (pieces.zipWith (fun p new => p.gap ++ new.getD p.own) news).flatten

def filled (c : Cut α) (news : List (Option (List Char))) : List Char :=
  replaced c.pieces news ++ c.tail

/-- Whether each item spans the bytes of its own text, if the first piece begins at an offset. -/
def SpansFrom (span : α → Span) : Nat → List (Piece α) → Prop
  | _, [] => True
  | at_, p :: rest =>
    let start := at_ + width p.gap
    span p.item = ⟨start, start + width p.own⟩ ∧ p.own ≠ [] ∧
      SpansFrom span (start + width p.own) rest

def Fits (c : Cut α) (span : α → Span) : Prop := SpansFrom span 0 c.pieces

@[simp] theorem textOf_nil : textOf ([] : List (Piece α)) = [] := rfl

@[simp] theorem textOf_cons (p : Piece α) (rest : List (Piece α)) :
    textOf (p :: rest) = p.gap ++ p.own ++ textOf rest := rfl

@[simp] theorem textOf_append (a b : List (Piece α)) : textOf (a ++ b) = textOf a ++ textOf b :=
  List.flatMap_append

theorem replaced_append {a b : List (Piece α)} {news more : List (Option (List Char))}
    (h : news.length = a.length) :
    replaced (a ++ b) (news ++ more) = replaced a news ++ replaced b more := by
  rw [replaced, List.zipWith_append h.symm, List.flatten_append]
  rfl

theorem spansFrom_append {at_ : Nat} {a b : List (Piece α)} :
    SpansFrom span at_ (a ++ b) ↔
      SpansFrom span at_ a ∧ SpansFrom span (at_ + width (textOf a)) b := by
  induction a generalizing at_ with
  | nil => exact (and_iff_right trivial).symm
  | cons p a ih =>
    simp only [List.cons_append, SpansFrom, ih, textOf_cons, width_append, Nat.add_assoc, and_assoc]

/-- An item lies behind everything before its piece. -/
theorem le_of_spansFrom {at_ : Nat} {pieces : List (Piece α)} (h : SpansFrom span at_ pieces) :
    ∀ p ∈ pieces, at_ ≤ (span p.item).start := by
  induction pieces generalizing at_ with
  | nil => exact List.forall_mem_nil _
  | cons p rest ih =>
    obtain ⟨hspan, _, hrest⟩ := h
    refine List.forall_mem_cons.2 ⟨?_, fun q hq => ?_⟩
    · rw [hspan]
      exact Nat.le_add_right _ _
    · have := ih hrest q hq
      omega

end Cut

/-- Whether spans can be sliced out of a text one after the other: each begins and ends between two
characters, is not empty, and ends before the next one begins. -/
structure Sliceable {α : Type} (span : α → Span) (items : List α) (text : List Char) : Prop where
  start : ∀ item ∈ items, String.Pos.Raw.IsValid (String.ofList text) ⟨(span item).start⟩
  stop : ∀ item ∈ items, String.Pos.Raw.IsValid (String.ofList text) ⟨(span item).stop⟩
  nonempty : ∀ item ∈ items, (span item).start < (span item).stop
  ordered : items.Pairwise fun a b => (span a).stop ≤ (span b).start

namespace Cut
variable {α : Type} {span : α → Span} {c : Cut α}

/-- Where a piece stands. -/
theorem Fits.span_eq (h : c.Fits span) {before after : List (Piece α)} {p : Piece α}
    (hp : c.pieces = before ++ p :: after) :
    span p.item = ⟨width (textOf before ++ p.gap), width (textOf before ++ p.gap ++ p.own)⟩ ∧
      p.own ≠ [] := by
  rw [Fits, hp, spansFrom_append] at h
  obtain ⟨hspan, hown, _⟩ := h.2
  refine ⟨?_, hown⟩
  rw [hspan]
  simp only [width_append, Nat.zero_add]

theorem Fits.sliceable (h : c.Fits span) : Sliceable span c.items c.text where
  start item hitem := by
    obtain ⟨p, hp, rfl⟩ := List.mem_map.1 hitem
    obtain ⟨before, after, hsplit⟩ := List.append_of_mem hp
    rw [(h.span_eq hsplit).1]
    refine isValid_of_append (b := p.own ++ textOf after ++ c.tail) ?_
    simp [text, hsplit]
  stop item hitem := by
    obtain ⟨p, hp, rfl⟩ := List.mem_map.1 hitem
    obtain ⟨before, after, hsplit⟩ := List.append_of_mem hp
    rw [(h.span_eq hsplit).1]
    refine isValid_of_append (b := textOf after ++ c.tail) ?_
    simp [text, hsplit]
  nonempty item hitem := by
    obtain ⟨p, hp, rfl⟩ := List.mem_map.1 hitem
    obtain ⟨before, after, hsplit⟩ := List.append_of_mem hp
    obtain ⟨hspan, hown⟩ := h.span_eq hsplit
    have hpos := width_pos hown
    rw [hspan, width_append _ p.own]
    exact Nat.lt_add_of_pos_right hpos
  ordered := by
    have hpairs : ∀ (pieces : List (Piece α)) (at_ : Nat), SpansFrom span at_ pieces →
        pieces.Pairwise fun p q => (span p.item).stop ≤ (span q.item).start := by
      intro pieces
      induction pieces with
      | nil => exact fun _ _ => .nil
      | cons p rest ih =>
        intro at_ h
        refine .cons (fun q hq => ?_) (ih _ h.2.2)
        rw [h.1]
        exact le_of_spansFrom h.2.2 q hq
    exact List.pairwise_map.2 (hpairs _ 0 h)

end Cut

/-! ## A scan cuts its text up -/

section
variable {α : Type} {body : List Char → Option (α × List Char)}
  (shrinks : ∀ {cs a rest}, body cs = some (a, rest) → rest.length ≤ cs.length)

omit shrinks in
/-- What braces open is left at an end of the text behind them. -/
theorem exists_of_opened? (hbody : Leaves body) {cs after : List Char} {a : α}
    (h : opened? body cs = some (a, after)) : ∃ own, cs = '{' :: '{' :: own ++ after := by
  unfold opened? at h
  split at h
  · obtain ⟨own, hown⟩ := hbody _ _ _ h
    exact ⟨own, by rw [← hown]; rfl⟩
  · cases h

/-- Between two finds the scan only passes over characters: `gap` is what it has passed over since
the last one. -/
theorem exists_cut_scan (hbody : Leaves body) (at_ : Nat) (gap cs : List Char) :
    ∃ pieces tail, scan body shrinks (at_ + width gap) cs = pieces.map (·.item) ∧
      Cut.textOf pieces ++ tail = gap ++ cs ∧ Cut.SpansFrom Prod.snd at_ pieces :=
  match cs with
  | [] => ⟨[], gap, by rw [scan.eq_def]; rfl, (List.append_nil gap).symm, trivial⟩
  | c :: rest => by
    cases hopened : opened? body (c :: rest) with
    | none =>
      have hwidth : at_ + width gap + c.utf8Size = at_ + width (gap ++ [c]) := by
        rw [width_append, Nat.add_assoc]
        rfl
      rw [scan_skipped hopened, hwidth]
      obtain ⟨pieces, tail, hitems, htext, hspans⟩ := exists_cut_scan hbody at_ (gap ++ [c]) rest
      exact ⟨pieces, tail, hitems, by rw [htext, List.append_assoc]; rfl, hspans⟩
    | some find =>
      obtain ⟨a, after⟩ := find
      obtain ⟨own, hown⟩ := exists_of_opened? hbody hopened
      have hlength : after.length < (c :: rest).length := by
        simp only [hown, List.length_cons, List.length_append]
        omega
      have hwidth : width (c :: rest) - width after = width ('{' :: '{' :: own) := by
        rw [hown, width_append, Nat.add_sub_cancel]
      rw [scan_found hopened, hwidth]
      obtain ⟨pieces, tail, hitems, htext, hspans⟩ :=
        exists_cut_scan hbody (at_ + width gap + width ('{' :: '{' :: own)) [] after
      refine ⟨⟨gap, (a, _), '{' :: '{' :: own⟩ :: pieces, tail, congrArg (_ :: ·) hitems, ?_, rfl,
        List.cons_ne_nil _ _, hspans⟩
      rw [List.nil_append] at htext
      rw [Cut.textOf_cons, List.append_assoc, htext, hown, List.append_assoc]
termination_by cs.length
decreasing_by
  · exact Nat.lt_succ_self _
  · exact hlength

/-- Placeholders that are made of finds. -/
theorem exists_cut_map {β : Type} (span : β → Span) (make : α × Span → β)
    (hmake : ∀ find, span (make find) = find.2) (hbody : Leaves body) (text : List Char) :
    ∃ c : Cut β, c.items = (scan body shrinks 0 text).map make ∧ c.text = text ∧ c.Fits span := by
  obtain ⟨pieces, tail, hitems, htext, hspans⟩ := exists_cut_scan shrinks hbody 0 [] text
  have hmap : ∀ (pieces : List (Piece (α × Span))) (at_ : Nat),
      Cut.SpansFrom Prod.snd at_ pieces → Cut.SpansFrom span at_ (pieces.map (.map make)) := by
    intro pieces
    induction pieces with
    | nil => exact fun _ _ => trivial
    | cons p rest ih => exact fun at_ h => ⟨(hmake p.item).trans h.1, h.2.1, ih _ h.2.2⟩
  refine ⟨⟨pieces.map (.map make), tail⟩, ?_, ?_, hmap pieces 0 hspans⟩
  · have hscan : scan body shrinks 0 text = pieces.map (·.item) := hitems
    rw [hscan, Cut.items, List.map_map, List.map_map]
    rfl
  · rw [← List.nil_append text, ← htext, Cut.text, Cut.textOf, Cut.textOf, List.flatMap_map]
    rfl

end

/-! ## Splicing -/

section
variable {σ ε α : Type} {span : α → Span} {replace : α → Effect σ ε (Option (List Char))}

/-- From the last piece to the first: what stands behind a piece is not cut again. -/
theorem spliceBack_answered {pieces : List (Piece α)} (hfits : Cut.SpansFrom span 0 pieces)
    {news : List (Option (List Char))} {s t : σ}
    (h : Effect.Answers replace (pieces.reverse.map (·.item)) s news t) (tail done : List Char) :
    spliceBack span replace (pieces.reverse.map (·.item)) (Cut.textOf pieces ++ tail) done s
      = (.ok (Cut.replaced pieces news.reverse ++ tail ++ done), t) := by
  induction pieces using List.reverseRecOn generalizing news s tail done with
  | nil =>
    cases h
    rfl
  | append_singleton earlier p ih =>
    rw [List.reverse_concat, List.map_cons] at h ⊢
    obtain ⟨hearlier, hspan, _, _⟩ := Cut.spansFrom_append.1 hfits
    rw [Nat.zero_add, ← width_append] at hspan
    cases h with
    | @cons _ _ new news _ u _ hnew hrest =>
      have htext : Cut.textOf (earlier ++ [p]) ++ tail
          = Cut.textOf earlier ++ p.gap ++ (p.own ++ tail) := by simp
      have hlength : news.reverse.length = earlier.length := by
        rw [List.length_reverse, hrest.length_eq, List.length_map, List.length_reverse]
      have hown : (span p.item).length = width p.own := by
        rw [hspan, Span.length, Nat.add_sub_cancel_left]
      have hstart : (span p.item).start = width (Cut.textOf earlier ++ p.gap) := by rw [hspan]
      rw [spliceBack]
      dsimp only
      rw [Effect.bind_ok hnew, hown, hstart, htext, takeBytes_width, dropBytes_width,
        takeBytes_width, dropBytes_width, ih hearlier hrest, List.reverse_cons,
        Cut.replaced_append hlength]
      simp [Cut.replaced]

/-- A failure ends the work, and nothing is asked of the items before. -/
theorem spliceBack_failed {called rest : List α} {item : α} {news : List (Option (List Char))}
    {e : ε} {s t u : σ} (hcalled : Effect.Answers replace called s news u)
    (hfailed : replace item u = (.error e, t)) (text done : List Char) :
    spliceBack span replace (called ++ item :: rest) text done s = (.error e, t) := by
  induction hcalled generalizing text done with
  | nil =>
    rw [List.nil_append, spliceBack]
    exact Effect.bind_error hfailed
  | cons hfirst _ ih =>
    rw [List.cons_append, spliceBack]
    dsimp only
    rw [Effect.bind_ok hfirst]
    exact ih hfailed _ _

end

/-- What replacements in a text come to, whatever they do to a state: the items are asked for from
the last to the first; if all answer, the texts between them stay with the answers between them, and
otherwise the first failure is the result, and no item before it was asked for. -/
structure Splices {α : Type} (span : α → Span) (items : List α) (text : List Char) : Prop where
  sliceable : Sliceable span items text
  result : ∃ c : Cut α, c.items = items ∧ c.text = text ∧ c.Fits span ∧
    ∀ (σ ε : Type) (replace : α → Effect σ ε (Option (List Char))) (s : σ),
      (∃ news t, Effect.Answers replace items.reverse s news t ∧
        splice span replace items text s = (.ok (c.filled news.reverse), t)) ∨
      ∃ earlier item later news u e t, items = earlier ++ item :: later ∧
        Effect.Answers replace later.reverse s news u ∧ replace item u = (.error e, t) ∧
        splice span replace items text s = (.error e, t)

theorem Cut.splices {α : Type} {span : α → Span} {c : Cut α} (h : c.Fits span) :
    Splices span c.items c.text where
  sliceable := h.sliceable
  result := by
    refine ⟨c, rfl, rfl, h, fun σ ε replace s => ?_⟩
    have hreverse : c.items.reverse = c.pieces.reverse.map (·.item) := List.map_reverse.symm
    obtain ⟨news, t, hnews⟩ | ⟨called, item, rest, news, u, e, t, hitems, hcalled, hfailed⟩ :=
      Effect.Answers.total replace c.items.reverse s
    · refine .inl ⟨news, t, hnews, ?_⟩
      rw [hreverse] at hnews
      rw [splice, hreverse, text, spliceBack_answered h hnews, List.append_nil]
      rfl
    · refine .inr ⟨rest.reverse, item, called.reverse, news, u, e, t, ?_, ?_, hfailed, ?_⟩
      · rw [← List.reverse_reverse c.items, hitems]
        simp
      · rwa [List.reverse_reverse]
      · rw [splice, hitems]
        exact spliceBack_failed hcalled hfailed _ _

/-- The variables of a text can be replaced, and so can its snippets. -/
theorem splices_placeholders (text : List Char) :
    Splices Variable.span (variablesIn text) text ∧ Splices Snippet.span (snippetsIn text) text := by
  obtain ⟨c, hitems, htext, hfits⟩ := exists_cut_map length_variableBody?_le
    Variable.span (fun find => ⟨String.ofList find.1, find.2⟩)
    (fun _ => rfl) leaves_variableBody? text
  obtain ⟨d, hitems', htext', hfits'⟩ := exists_cut_map length_snippetBody?_le Snippet.span
    (fun find => ⟨String.ofList find.1.1, find.1.2.map String.ofList, find.2⟩)
    (fun _ => rfl) leaves_snippetBody? text
  have hvariables := Cut.splices hfits
  have hsnippets := Cut.splices hfits'
  rw [hitems, htext] at hvariables
  rw [hitems', htext'] at hsnippets
  exact ⟨hvariables, hsnippets⟩

end Markup
end AgentDocs
