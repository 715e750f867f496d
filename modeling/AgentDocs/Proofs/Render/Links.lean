import AgentDocs.Proofs.Command.Links
import AgentDocs.Render.Renderer

/-! # The files that a text refers to

The files that the builtin commands have rendered for a text are among those that its snippets
refer to, once variables are replaced. -/
namespace AgentDocs
open Markup

namespace RenderError

/-- The error that all around it only pass on. -/
def innermost : RenderError → RenderError
  | .ofCommand path name e => match e with
    | .ofRender e => e.innermost
    | e => .ofCommand path name e
  | e => e

/-- A property of innermost errors that only an inclusion can violate. -/
structure Passes (G : RenderError → Prop) : Prop where
  ofCommand : ∀ path name e, e.Clean G → G (.ofCommand path name e)
  unresolvedVariable : ∀ path name, G (.unresolvedVariable path name)
  ofStore : ∀ e, G (.ofStore e)

end RenderError

namespace Renderer

/-- The files that the text of a file refers to. -/
def linksOf (r : Renderer) (template : TemplateScope) (path : Path) (text : List Char) :
    List Path :=
  match fillVariables r.registry template.parameters path text with
  | .error _ => []
  | .ok filled =>
    if template.dispatches then
      (snippetsIn filled).filterMap
        (Scope.linkOf? ⟨template, r.root, path.parent?.getD r.root, r.root⟩)
    else []

theorem linkOf?_congr {a b : Scope} (hroot : a.root = b.root) (hdir : a.workingDir = b.workingDir)
    (s : Snippet) : a.linkOf? s = b.linkOf? s := by
  unfold Scope.linkOf? Scope.resolve
  rw [hroot, hdir]

variable {classes : ClassIndex} {scope : Scope} {Link There : Path → Prop}
  {G : RenderError → Prop}

theorem meets_dispatch (hG : RenderError.Passes G) (path : Path) {s : Snippet}
    (hlink : ∀ p, scope.linkOf? s = some p → Link p) :
    (dispatch (.builtin classes) scope path s).Meets (.links scope Link There (fun _ => True) G)
      (fun _ => True) G := by
  unfold dispatch
  split
  · exact Script.meets_pure trivial
  · rename_i command hfind
    obtain ⟨hmem, hname⟩ := Registry.mem_of_find? hfind
    have hinvoke : CommandScript.Keeps scope Link There (fun _ => True) G (fun _ => True)
        (command.invoke scope s.arguments) := by
      rcases Command.renders_of_mem_builtin hmem with h | ⟨h, hlinked⟩
      · exact h _ _ _ _ _
      · refine h _ _ _ _ _ _ fun hlen => hlink _ ?_
        obtain ⟨reference, hargs⟩ := List.length_eq_one_iff.1 hlen
        rw [hname] at hlinked
        simp only [Scope.linkOf?, hargs, hlinked, if_true, List.getD_cons_zero]
    exact Script.Meets.bind (Script.Meets.mapError
      (hinvoke.weaken (fun _ _ => trivial) fun e he => hG.ofCommand path s.name e he)) fun _ _ =>
      trivial

/-- A replacement fails only where one of the items does. -/
theorem exists_of_splice_error {ι : Type} {span : ι → Span}
    {replace : ι → Except RenderError (Option (List Char))} {items : List ι} {text : List Char}
    {e : RenderError} (h : splice span replace items text = .error e) :
    ∃ item ∈ items, replace item = .error e := by
  have hback : ∀ (items : List ι) (text done : List Char),
      spliceBack span replace items text done = .error e →
        ∃ item ∈ items, replace item = .error e := by
    intro items
    induction items with
    | nil => exact fun _ _ h => nomatch h
    | cons item items ih =>
      intro text done h
      cases hitem : replace item with
      | error e' =>
        rw [spliceBack, hitem] at h
        cases h
        exact ⟨item, List.mem_cons_self, hitem⟩
      | ok new =>
        rw [spliceBack, hitem] at h
        obtain ⟨i, hi, hie⟩ := ih _ _ h
        exact ⟨i, List.mem_cons_of_mem _ hi, hie⟩
  obtain ⟨item, hitem, he⟩ := hback _ _ _ h
  exact ⟨item, List.mem_reverse.1 hitem, he⟩

theorem passes_fillVariables (hG : RenderError.Passes G) {registry : Registry}
    {parameters : Parameters} {path : Path} {text : List Char} {e : RenderError}
    (h : fillVariables registry parameters path text = .error e) : G e := by
  obtain ⟨v, _, hv⟩ := exists_of_splice_error h
  unfold valueOf at hv
  split at hv
  · cases hv
  · split at hv
    · cases hv
    · cases hv
      exact hG.unresolvedVariable path v.name

/-- What the builtin commands do for the text of a file. -/
theorem meets_expand {r : Renderer} (hr : r.registry = .builtin classes)
    (hG : RenderError.Passes G) (path : Path) (text : List Char)
    (hdir : scope.workingDir = path.parent?.getD r.root) (hroot : scope.root = r.root)
    (hlink : ∀ p ∈ r.linksOf scope.template path text, Link p) :
    (expand r.registry scope path text).Meets (.links scope Link There (fun _ => True) G)
      (fun _ => True) G := by
  unfold linksOf at hlink
  unfold expand
  cases hfill : fillVariables r.registry scope.template.parameters path text with
  | error e =>
    exact passes_fillVariables hG hfill
  | ok filled =>
    rw [hfill] at hlink
    change (if scope.template.dispatches then
      splice Snippet.span (dispatch r.registry scope path) (snippetsIn filled) filled
      else pure filled).Meets _ _ _
    split
    · rename_i hdispatches
      simp only [hdispatches, if_true, List.mem_filterMap] at hlink
      rw [hr]
      refine Script.meets_splice (fun s hs => meets_dispatch hG path fun p hp => ?_) _
      refine hlink p ⟨s, hs, ?_⟩
      rw [← hp]
      exact linkOf?_congr hroot.symm hdir.symm s
    · exact Script.meets_pure trivial

end Renderer
end AgentDocs
