import AgentDocs.Proofs.Markup.Splice
import Mathlib.Data.List.DropRight
import Mathlib.Data.List.TakeWhile

/-! # Variables and snippets of one text

A variable is read as a snippet, and a snippet that is not read as a variable has a colon. So two
scans of a text, one for variables and one for snippets, stand at the same place again behind each
snippet: inside of one with a colon the first scan may find variables, but none that reaches beyond
its braces. -/
namespace AgentDocs.Markup
open Text

/-! ## What is read as a variable -/

/-- The blanks and the name have neither a closing brace nor a colon. -/
theorem exists_of_name? {cs name after : List Char} (h : name? cs = some (name, after)) :
    ∃ own, cs = own ++ after ∧ '}' ∉ own ∧ ':' ∉ own ∧ skipSpace after = after := by
  have hspace : ∀ (ds : List Char) (c : Char), c ∈ ds.takeWhile isSpace → c ≠ '}' ∧ c ≠ ':' := by
    intro ds c hc
    have hc := List.mem_takeWhile_imp hc
    constructor <;> rintro rfl <;> exact absurd hc (by decide)
  have hname : ∀ c ∈ (skipSpace cs).takeWhile isNameChar, c ≠ '}' ∧ c ≠ ':' := by
    intro c hc
    have hc := List.mem_takeWhile_imp hc
    constructor <;> rintro rfl <;> exact absurd hc (by decide)
  unfold name? at h
  dsimp only at h
  split at h
  · cases h
  · cases h
    refine ⟨cs.takeWhile isSpace ++ (skipSpace cs).takeWhile isNameChar
      ++ ((skipSpace cs).dropWhile isNameChar).takeWhile isSpace, ?_, ?_, ?_, ?_⟩
    · simp only [skipSpace, List.append_assoc, List.takeWhile_append_dropWhile]
    · grind
    · grind
    · exact List.dropWhile_idempotent _ _

theorem exists_of_variableBody? {cs name rest : List Char}
    (h : variableBody? cs = some (name, rest)) :
    ∃ own, cs = own ++ '}' :: '}' :: rest ∧ '}' ∉ own ∧ ':' ∉ own := by
  obtain ⟨⟨_, after⟩, hname, h⟩ := Option.bind_eq_some_iff.1 h
  obtain ⟨_, hclose, h⟩ := Option.bind_eq_some_iff.1 h
  cases h
  obtain ⟨own, hcs, hbrace, hcolon, _⟩ := exists_of_name? hname
  exact ⟨own, by rw [hcs, close?_eq_some_iff.1 hclose], hbrace, hcolon⟩

theorem snippetBody?_of_variableBody? {cs name rest : List Char}
    (h : variableBody? cs = some (name, rest)) : snippetBody? cs = some ((name, []), rest) := by
  obtain ⟨⟨_, after⟩, hname, h⟩ := Option.bind_eq_some_iff.1 h
  obtain ⟨_, hclose, h⟩ := Option.bind_eq_some_iff.1 h
  cases h
  obtain rfl := close?_eq_some_iff.1 hclose
  simp only [snippetBody?, hname, Option.bind_eq_bind, Option.bind_some]
  rfl

/-- What is read as a snippet but not as a variable has a colon. -/
theorem snippetBody?_cases {cs name rest : List Char} {args : List (List Char)}
    (h : snippetBody? cs = some ((name, args), rest)) :
    (variableBody? cs = some (name, rest) ∧ args = []) ∨
      variableBody? cs = none ∧ ∃ own, cs = own ++ '}' :: '}' :: rest ∧ ':' ∈ own := by
  obtain ⟨⟨_, after⟩, hname, h⟩ := Option.bind_eq_some_iff.1 h
  obtain ⟨_, hclose, h⟩ := Option.bind_eq_some_iff.1 h
  cases h
  obtain ⟨own, hcs, _, _, hskipped⟩ := exists_of_name? hname
  split at hclose
  · rename_i tail _
    obtain ⟨read, hread⟩ := (skipSpace_suffix _).trans (arguments_suffix tail)
    rw [close?_eq_some_iff.1 hclose] at hread
    refine .inr ⟨by simp [variableBody?, hname, close?], own ++ ':' :: read, ?_, by simp⟩
    rw [hcs, ← hread]
    simp
  · rw [hskipped] at hclose
    exact .inl ⟨by simp [variableBody?, hname, hclose], rfl⟩

/-! ## Inside of a snippet -/

theorem opened?_variable_of_none {cs : List Char} (h : opened? snippetBody? cs = none) :
    opened? variableBody? cs = none := by
  unfold opened? at h ⊢
  split at h
  · cases hvariable : variableBody? _ with
    | none => rfl
    | some find => cases (snippetBody?_of_variableBody? hvariable).symm.trans h
  · rfl

/-- A variable that begins in a text with two closing braces at its end does not reach beyond it. -/
theorem suffix_of_opened? {s seg after name rest : List Char} (hseg : seg <:+ s ++ ['}', '}'])
    (hne : seg ≠ []) (h : opened? variableBody? (seg ++ after) = some (name, rest)) :
    after <:+ rest := by
  obtain ⟨own, htext, hown, hbrace⟩ :
      ∃ own, seg ++ after = own ++ '}' :: '}' :: rest ∧ own ≠ [] ∧ '}' ∉ own := by
    unfold opened? at h
    split at h
    · rename_i heq
      obtain ⟨own, hown, hbrace, _⟩ := exists_of_variableBody? h
      exact ⟨'{' :: '{' :: own, by rw [heq, hown]; rfl, List.cons_ne_nil _ _, by simp [hbrace]⟩
    · cases h
  obtain ⟨before, hseg⟩ := hseg
  obtain rfl | ⟨init, last, rfl⟩ := List.eq_nil_or_concat' seg
  · exact absurd rfl hne
  have hends : before ++ init ++ [last] = s ++ ['}'] ++ ['}'] := by simp [hseg]
  obtain ⟨hinit, ⟨⟩⟩ := List.append_inj' hends rfl
  obtain ⟨more, hlonger, _⟩ | ⟨closing, hclosing, hrest⟩ := List.append_eq_append_iff.1 htext
  · exact absurd (hlonger ▸ by simp) hbrace
  · match closing, hclosing, hrest with
    | [], hclosing, _ => exact absurd (List.append_nil own ▸ hclosing ▸ by simp) hbrace
    | [_], hclosing, _ =>
      -- The text would have only one brace behind `own`, so the other one would be in it.
      obtain ⟨rfl, _⟩ := List.append_inj' hclosing rfl
      obtain rfl | ⟨front, c, rfl⟩ := List.eq_nil_or_concat' init
      · exact absurd rfl hown
      · rw [← List.append_assoc] at hinit
        obtain ⟨_, ⟨⟩⟩ := List.append_inj' hinit rfl
        exact absurd (by simp) hbrace
    | _ :: _ :: more, _, hrest =>
      cases hrest
      exact List.suffix_append _ _

/-! ## Two scans in step -/

/-- The variables from a place on. -/
def variablesFrom (at_ : Nat) (cs : List Char) : List Variable :=
  (scan variableBody? length_variableBody?_le at_ cs).map fun (name, span) =>
    ⟨String.ofList name, span⟩

/-- The snippets from a place on. -/
def snippetsFrom (at_ : Nat) (cs : List Char) : List Snippet :=
  (scan snippetBody? length_snippetBody?_le at_ cs).map fun ((name, args), span) =>
    ⟨String.ofList name, args.map String.ofList, span⟩

theorem variablesFrom_skipped {at_ : Nat} {c : Char} {rest : List Char}
    (h : opened? variableBody? (c :: rest) = none) :
    variablesFrom at_ (c :: rest) = variablesFrom (at_ + c.utf8Size) rest := by
  rw [variablesFrom, scan_skipped h]
  rfl

theorem snippetsFrom_skipped {at_ : Nat} {c : Char} {rest : List Char}
    (h : opened? snippetBody? (c :: rest) = none) :
    snippetsFrom at_ (c :: rest) = snippetsFrom (at_ + c.utf8Size) rest := by
  rw [snippetsFrom, scan_skipped h]
  rfl

theorem variablesFrom_found {at_ : Nat} {own after name : List Char}
    (h : opened? variableBody? (own ++ after) = some (name, after)) :
    variablesFrom at_ (own ++ after) = ⟨String.ofList name, ⟨at_, at_ + width own⟩⟩ ::
      variablesFrom (at_ + width own) after := by
  rw [variablesFrom, scan_found h, width_append, Nat.add_sub_cancel]
  rfl

theorem snippetsFrom_found {at_ : Nat} {own after name : List Char} {args : List (List Char)}
    (h : opened? snippetBody? (own ++ after) = some ((name, args), after)) :
    snippetsFrom at_ (own ++ after)
      = ⟨String.ofList name, args.map String.ofList, ⟨at_, at_ + width own⟩⟩ ::
        snippetsFrom (at_ + width own) after := by
  rw [snippetsFrom, scan_found h, width_append, Nat.add_sub_cancel]
  rfl

/-- The variables and the snippets from a place on: they are the same, but for snippets with a colon,
and there may be any variables inside of those. -/
inductive InStep : Nat → List Char → List Variable → List Snippet → Prop
  | done (at_ : Nat) : InStep at_ [] [] []
  | skipped {at_ : Nat} {c : Char} {rest : List Char} {vs : List Variable} {ss : List Snippet} :
    InStep (at_ + c.utf8Size) rest vs ss → InStep at_ (c :: rest) vs ss
  | bare {at_ : Nat} {own rest : List Char} {name : String} {vs : List Variable}
    {ss : List Snippet} : own ≠ [] → ':' ∉ own → InStep (at_ + width own) rest vs ss →
    InStep at_ (own ++ rest) (⟨name, ⟨at_, at_ + width own⟩⟩ :: vs)
      (⟨name, [], ⟨at_, at_ + width own⟩⟩ :: ss)
  | colon {at_ : Nat} {own rest : List Char} {name : String} {args : List String}
    {inside vs : List Variable} {ss : List Snippet} : ':' ∈ own →
    (∀ v ∈ inside, at_ ≤ v.span.start ∧ v.span.start < v.span.stop
      ∧ v.span.stop ≤ at_ + width own) →
    InStep (at_ + width own) rest vs ss →
    InStep at_ (own ++ rest) (inside ++ vs) (⟨name, args, ⟨at_, at_ + width own⟩⟩ :: ss)

/-- What stands before closing braces is gone through without going beyond them. -/
theorem exists_inside (at_ : Nat) {s seg : List Char} (hseg : seg <:+ s ++ ['}', '}'])
    (after : List Char) : ∃ inside,
      variablesFrom at_ (seg ++ after) = inside ++ variablesFrom (at_ + width seg) after ∧
      ∀ v ∈ inside, at_ ≤ v.span.start ∧ v.span.start < v.span.stop
        ∧ v.span.stop ≤ at_ + width seg := by
  match seg, hseg with
  | [], _ => exact ⟨[], rfl, List.forall_mem_nil _⟩
  | c :: seg, hseg =>
    cases h : opened? variableBody? (c :: (seg ++ after)) with
    | none =>
      obtain ⟨inside, hscan, hinside⟩ :=
        exists_inside (at_ + c.utf8Size) ((List.suffix_cons c seg).trans hseg) after
      refine ⟨inside, ?_, fun v hv => ?_⟩
      · rw [List.cons_append, variablesFrom_skipped h, hscan, width, Nat.add_assoc]
      · have := hinside v hv
        rw [width]
        omega
    | some find =>
      obtain ⟨name, rest⟩ := find
      obtain ⟨later, rfl⟩ := suffix_of_opened? hseg (List.cons_ne_nil c seg) h
      obtain ⟨own, hown⟩ := exists_of_opened? leaves_variableBody? h
      have hsplit : c :: seg = '{' :: '{' :: own ++ later := by
        rw [← List.append_assoc] at hown
        exact List.append_cancel_right hown
      have hlength : later.length < seg.length + 1 := by
        have := congrArg List.length hsplit
        simp only [List.length_cons, List.length_append] at this
        omega
      have hpos : 0 < width ('{' :: '{' :: own) := width_pos (List.cons_ne_nil _ _)
      rw [hsplit] at hseg ⊢
      rw [hown] at h
      obtain ⟨inside, hscan, hinside⟩ := exists_inside (at_ + width ('{' :: '{' :: own))
        ((List.suffix_append _ later).trans hseg) after
      refine ⟨⟨String.ofList name, ⟨at_, at_ + width ('{' :: '{' :: own)⟩⟩ :: inside, ?_,
        List.forall_mem_cons.2 ⟨?_, fun v hv => ?_⟩⟩
      · rw [List.append_assoc, variablesFrom_found h, hscan, width_append, Nat.add_assoc]
        rfl
      · rw [width_append]
        dsimp only
        omega
      · have := hinside v hv
        rw [width_append]
        omega
termination_by seg.length

theorem inStep (at_ : Nat) (cs : List Char) :
    InStep at_ cs (variablesFrom at_ cs) (snippetsFrom at_ cs) := by
  match cs with
  | [] =>
    rw [variablesFrom, snippetsFrom, scan.eq_def, scan.eq_def]
    exact .done at_
  | c :: rest =>
    cases h : opened? snippetBody? (c :: rest) with
    | none =>
      rw [variablesFrom_skipped (opened?_variable_of_none h), snippetsFrom_skipped h]
      exact .skipped (inStep _ rest)
    | some find =>
      obtain ⟨⟨name, args⟩, after⟩ := find
      obtain ⟨own, hown⟩ := exists_of_opened? leaves_snippetBody? h
      have hlength : after.length < rest.length + 1 := by
        have := congrArg List.length hown
        simp only [List.length_cons, List.length_append] at this
        omega
      rw [hown] at h ⊢
      obtain ⟨hvariable, rfl⟩ | ⟨hvariable, inner, hinner, hcolon⟩ :=
        @snippetBody?_cases (own ++ after) _ _ _ h
      · obtain ⟨inner, hinner, _, hcolon⟩ := exists_of_variableBody? hvariable
        obtain rfl : own = inner ++ ['}', '}'] :=
          List.append_cancel_right (hinner.trans (by simp))
        rw [snippetsFrom_found h, @variablesFrom_found _ ('{' :: '{' :: _) _ _ hvariable]
        exact .bare (List.cons_ne_nil _ _) (by simp [hcolon]) (inStep _ after)
      · obtain rfl : own = inner ++ ['}', '}'] :=
          List.append_cancel_right (hinner.trans (by simp))
        obtain ⟨inside, hscan, hinside⟩ :=
          exists_inside at_ (List.suffix_refl ('{' :: '{' :: inner ++ ['}', '}'])) after
        rw [snippetsFrom_found h]
        have hscan : variablesFrom at_ ('{' :: '{' :: (inner ++ ['}', '}']) ++ after)
            = inside ++ variablesFrom (at_ + width ('{' :: '{' :: (inner ++ ['}', '}']))) after :=
          hscan
        rw [hscan]
        exact .colon (by simp [hcolon]) hinside (inStep _ after)
termination_by cs.length

/-! ## What follows for their spans -/

/-- Whether another span lies inside. -/
def Span.covers (outer inner : Span) : Bool :=
  decide (outer.start ≤ inner.start) && decide (inner.stop ≤ outer.stop)

/-- Whether a snippet of a text is written with a colon. -/
def Snippet.hasColon (text : List Char) (s : Snippet) : Bool := (s.span.slice text).contains ':'

/-- Whether a variable of a text lies inside a snippet with a colon. -/
def Variable.isInside (text : List Char) (ss : List Snippet) (v : Variable) : Bool :=
  ss.any fun s => s.hasColon text && s.span.covers v.span

/-- Whether two spans have nothing in common, or the second lies inside the first. -/
def Span.Nests (outer inner : Span) : Prop :=
  inner.stop ≤ outer.start ∨ outer.stop ≤ inner.start ∨ outer.covers inner = true

theorem Span.covers_iff {outer inner : Span} :
    outer.covers inner = true ↔ outer.start ≤ inner.start ∧ inner.stop ≤ outer.stop := by
  simp [covers]

theorem slice_own (front own rest : List Char) :
    (Span.mk (width front) (width front + width own)).slice (front ++ (own ++ rest)) = own := by
  rw [Span.slice, dropBytes_width, Span.length, Nat.add_sub_cancel_left, takeBytes_width]

namespace InStep
variable {at_ : Nat} {cs : List Char} {vs : List Variable} {ss : List Snippet}

/-- What is found from a place on stands behind it. -/
theorem le_start (h : InStep at_ cs vs ss) :
    (∀ v ∈ vs, at_ ≤ v.span.start ∧ v.span.start < v.span.stop) ∧ ∀ s ∈ ss, at_ ≤ s.span.start := by
  induction h with
  | done => simp
  | skipped _ ih =>
    refine ⟨fun v hv => ?_, fun s hs => ?_⟩
    · have := ih.1 v hv
      omega
    · have := ih.2 s hs
      omega
  | @bare at_ own _ _ _ _ hown _ _ ih =>
    have hpos := width_pos hown
    refine ⟨List.forall_mem_cons.2 ⟨by dsimp only; omega, fun v hv => ?_⟩,
      List.forall_mem_cons.2 ⟨Nat.le_refl _, fun s hs => ?_⟩⟩
    · have := ih.1 v hv
      omega
    · have := ih.2 s hs
      omega
  | colon _ hinside _ ih =>
    refine ⟨fun v hv => ?_, List.forall_mem_cons.2 ⟨Nat.le_refl _, fun s hs => ?_⟩⟩
    · rcases List.mem_append.1 hv with hv | hv
      · have := hinside v hv
        omega
      · have := ih.1 v hv
        omega
    · have := ih.2 s hs
      omega

/-- A variable has nothing in common with a snippet, or lies inside of it. -/
theorem nests (h : InStep at_ cs vs ss) : ∀ v ∈ vs, ∀ s ∈ ss, s.span.Nests v.span := by
  induction h with
  | done => simp
  | skipped _ ih => exact ih
  | bare _ _ hrest ih =>
    intro v hv s hs
    rcases List.mem_cons.1 hv with rfl | hv <;> rcases List.mem_cons.1 hs with rfl | hs
    · exact .inr (.inr (Span.covers_iff.2 ⟨Nat.le_refl _, Nat.le_refl _⟩))
    · exact .inl (hrest.le_start.2 s hs)
    · exact .inr (.inl (hrest.le_start.1 v hv).1)
    · exact ih v hv s hs
  | colon _ hinside hrest ih =>
    intro v hv s hs
    rcases List.mem_append.1 hv with hv | hv <;> rcases List.mem_cons.1 hs with rfl | hs
    · exact .inr (.inr (Span.covers_iff.2 ⟨(hinside v hv).1, (hinside v hv).2.2⟩))
    · exact .inl (Nat.le_trans (hinside v hv).2.2 (hrest.le_start.2 s hs))
    · exact .inr (.inl (hrest.le_start.1 v hv).1)
    · exact ih v hv s hs

/-- By induction on the scans; `front` is what they have passed over. -/
theorem filter_eq (h : InStep at_ cs vs ss) {text : List Char} (front : List Char)
    (htext : text = front ++ cs) (hat : at_ = width front) :
    (ss.filter fun s => !s.hasColon text).map (fun s => (s.name, s.span))
      = (vs.filter fun v => !v.isInside text ss).map fun v => (v.name, v.span) := by
  induction h generalizing front with
  | done => rfl
  | @skipped at_ c rest vs ss _ ih =>
    refine ih (front ++ [c]) (by simp [htext]) ?_
    rw [hat, width_append]
    rfl
  | @bare at_ own rest name vs ss hown hcolon hrest ih =>
    have hrest' := ih (front ++ own) (by simp [htext]) (by rw [hat, width_append])
    have hbare : (Snippet.mk name [] ⟨at_, at_ + width own⟩).hasColon text = false := by
      rw [Snippet.hasColon, htext, hat, slice_own]
      simpa using hcolon
    have hpos := width_pos hown
    have hfirst : ss.any (fun s => s.hasColon text && s.span.covers ⟨at_, at_ + width own⟩)
        = false := by
      refine List.any_eq_false.2 fun s hs hinside => ?_
      have hstart := hrest.le_start.2 s hs
      have hcovers := (Span.covers_iff.1 (Bool.and_eq_true_iff.1 hinside).2).1
      dsimp only at hcovers
      omega
    simp only [Variable.isInside, List.any_cons, hbare, Bool.false_and, Bool.false_or]
    rw [List.filter_cons_of_pos (by simp [hbare]), List.filter_cons_of_pos (by simp [hfirst])]
    exact congrArg (_ :: ·) hrest'
  | @colon at_ own rest name args inside vs ss hcolon hinside hrest ih =>
    have hrest' := ih (front ++ own) (by simp [htext]) (by rw [hat, width_append])
    have hhead : (Snippet.mk name args ⟨at_, at_ + width own⟩).hasColon text = true := by
      rw [Snippet.hasColon, htext, hat, slice_own]
      simpa using hcolon
    have hin : inside.filter (fun v => !v.isInside text
        (⟨name, args, ⟨at_, at_ + width own⟩⟩ :: ss)) = [] := by
      refine List.filter_eq_nil_iff.2 fun v hv => ?_
      have hcovers : (Span.mk at_ (at_ + width own)).covers v.span = true :=
        Span.covers_iff.2 ⟨(hinside v hv).1, (hinside v hv).2.2⟩
      simp [Variable.isInside, hhead, hcovers]
    have hbehind : ∀ v ∈ vs, v.isInside text (⟨name, args, ⟨at_, at_ + width own⟩⟩ :: ss)
        = v.isInside text ss := by
      intro v hv
      have hstart := hrest.le_start.1 v hv
      have hcovers : (Span.mk at_ (at_ + width own)).covers v.span = false := by
        refine Bool.eq_false_iff.2 fun h => ?_
        have := (Span.covers_iff.1 h).2
        dsimp only at this
        omega
      simp [Variable.isInside, hcovers]
    rw [List.filter_cons_of_neg (by simp [hhead]), List.filter_append, hin, List.nil_append,
      List.filter_congr fun v hv => congrArg (!·) (hbehind v hv)]
    exact hrest'

end InStep

/-- The snippets of a text without a colon are its variables that do not lie inside a snippet with
one, and no variable lies partly inside a snippet. -/
theorem bare_snippets (text : List Char) :
    ((snippetsIn text).filter fun s => !s.hasColon text).map (fun s => (s.name, s.span))
        = ((variablesIn text).filter fun v => !v.isInside text (snippetsIn text)).map
            (fun v => (v.name, v.span)) ∧
      ∀ v ∈ variablesIn text, ∀ s ∈ snippetsIn text, s.span.Nests v.span :=
  ⟨(inStep 0 text).filter_eq [] rfl rfl, (inStep 0 text).nests⟩

end AgentDocs.Markup
