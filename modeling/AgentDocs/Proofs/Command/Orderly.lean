import AgentDocs.Proofs.Command.Links

/-! # Commands that pass failures on

A command may go on after a rendering that it asked for has failed, and it may have files rendered
for any directory. An orderly command does neither: it fails with the file, and renders for a
directory from the root if it stands in one. All builtin commands are orderly. -/
namespace AgentDocs

/-- Whether a file could not be rendered. -/
def Action.Failed : (a : Action) → a.Answer → Prop
  | .render _, x => ∃ e, x = .error e
  | .importFile .., x => ∃ e, x = .error e
  | _, _ => False

/-- Files are rendered for directories from the root. -/
def Contract.anchored : Contract where
  asks
    | .render job => job.targetDir.isAbsolute = true
    | _ => True
  answers _ _ := True

namespace Script
variable {ε δ α β : Type} {c : Contract} {Q : α → Prop} {E : ε → Prop}

/-! ## Failing with a file -/

/-- Whether a script has no result, however its actions end. -/
def Fails : Script ε α → Prop
  | done _ => False
  | fail _ => True
  | act _ next => ∀ x, (next x).Fails

/-- Whether a script has no result once a file could not be rendered. -/
def PassesOn : Script ε α → Prop
  | done _ | fail _ => True
  | act a next => ∀ x, (a.Failed x → (next x).Fails) ∧ (next x).PassesOn

theorem Fails.bind {s : Script ε α} (h : s.Fails) (f : α → Script ε β) : (s >>= f).Fails := by
  change (s.bind f).Fails
  induction s with
  | done a => exact h.elim
  | fail e => trivial
  | act a next ih => exact fun x => ih x (h x)

theorem Fails.mapError {s : Script δ α} (h : s.Fails) (wrap : δ → ε) : (s.mapError wrap).Fails := by
  induction s with
  | done a => exact h
  | fail e => trivial
  | act a next ih => exact fun x => ih x (h x)

theorem passesOn_ofExcept (result : Except ε α) : (ofExcept result).PassesOn := by
  cases result <;> trivial

theorem PassesOn.bind {s : Script ε α} {f : α → Script ε β} (h : s.PassesOn)
    (hf : ∀ a, (f a).PassesOn) : (s >>= f).PassesOn := by
  change (s.bind f).PassesOn
  induction s with
  | done a => exact hf a
  | fail e => trivial
  | act a next ih => exact fun x => ⟨fun hx => ((h x).1 hx).bind f, ih x (h x).2⟩

theorem PassesOn.mapError {s : Script δ α} (h : s.PassesOn) (wrap : δ → ε) :
    (s.mapError wrap).PassesOn := by
  induction s with
  | done a => trivial
  | fail e => trivial
  | act a next ih => exact fun x => ⟨fun hx => ((h x).1 hx).mapError wrap, ih x (h x).2⟩

theorem passesOn_splice {ι : Type} {span : ι → Markup.Span}
    {replace : ι → Script ε (Option (List Char))} (h : ∀ item, (replace item).PassesOn)
    (items : List ι) (text : List Char) :
    (Markup.splice span replace items text).PassesOn := by
  have hback : ∀ (items : List ι) (text done : List Char),
      (Markup.spliceBack span replace items text done).PassesOn := by
    intro items
    induction items with
    | nil => exact fun _ _ => trivial
    | cons item items ih => exact fun _ _ => (h item).bind fun _ => ih _ _
  exact hback _ _ _

/-- Without renderings there is no failure to pass on. -/
theorem passesOn_of_meets {s : Script ε α} (h : s.Meets c Q E)
    (hasks : ∀ a x, c.asks a → ¬a.Failed x) (hanswers : ∀ a x, c.answers a x) : s.PassesOn := by
  induction s with
  | done a => trivial
  | fail e => trivial
  | act a next ih =>
    exact fun x => ⟨fun hx => absurd hx (hasks a x h.1), ih x (h.2 x (hanswers a x))⟩

end Script

namespace Command
open Script CommandScript

structure Orderly (c : Command) : Prop where
  /-- It fails if a file that it has rendered does. -/
  passesOn : ∀ scope args, (c.invoke scope args).PassesOn
  /-- It has files rendered for directories from the root only, if its own is from the root. -/
  anchored : ∀ scope args, scope.targetDir.isAbsolute = true →
    (c.invoke scope args).Meets .anchored (fun _ => True) fun _ => True

/-- The answers of a store and of other renderings may be anything. -/
theorem links_answers (scope : Scope) (Link : Path → Prop) (Say : Template.Mention → Prop)
    (a : Action) (x : a.Answer) :
    (Contract.links scope Link (fun _ => True) Say fun _ => True).answers a x := by
  cases a with
  | ask question =>
    cases question with
    | exists? p kind =>
      cases kind with
      | none => trivial
      | some kind => cases kind <;> first | exact fun _ _ => trivial | trivial
    | _ => trivial
  | render job => exact fun _ _ => trivial
  | importFile template p =>
    intro e _
    cases e <;> trivial
  | keep | kept | mention | note => trivial

theorem anchored_of_keeps {scope : Scope} (hdir : scope.targetDir.isAbsolute = true)
    {script : CommandScript String}
    (h : Keeps scope (fun _ => True) (fun _ => True) (fun _ => True) (fun _ => True)
      (fun _ => True) script) :
    script.Meets .anchored (fun _ => True) fun _ => True := by
  refine (h.transfer (fun a ha => ?_) fun a x _ => links_answers scope _ _ a x).weaken
    (fun _ _ => trivial) fun _ _ => trivial
  cases a with
  | render job =>
    obtain ⟨p, rfl, _⟩ := ha
    exact hdir
  | _ => trivial

theorem RendersLink.anchored {c : Command} (h : RendersLink c) (scope : Scope) (args : List String)
    (hdir : scope.targetDir.isAbsolute = true) :
    (c.invoke scope args).Meets .anchored (fun _ => True) fun _ => True :=
  anchored_of_keeps hdir (h scope args _ _ _ _ fun _ => trivial)

theorem RendersNothing.orderly {c : Command} (h : RendersNothing c) : c.Orderly where
  passesOn scope args := by
    refine passesOn_of_meets (h scope args (fun _ => False) (fun _ => True) fun _ => True) ?_
      (links_answers scope _ _)
    intro a x ha hx
    cases a with
    | render job =>
      obtain ⟨_, _, hlink, _⟩ := ha
      exact hlink
    | importFile template p => exact ha.2
    | _ => exact hx
  anchored scope args hdir := anchored_of_keeps hdir (h scope args _ _ _)

theorem passesOn_existingFile (scope : Scope) (reference : String) :
    (existingFile scope reference).PassesOn := by
  refine PassesOn.bind (fun x => ⟨False.elim, passesOn_ofExcept _⟩) fun found => ?_
  split <;> trivial

theorem passesOn_render (job : Job) : (render job).PassesOn := by
  refine fun x => ⟨?_, passesOn_ofExcept _⟩
  rintro ⟨e, rfl⟩
  trivial

theorem orderly_include : includeFile.Orderly where
  passesOn scope _ := (passesOn_ofExcept _).bind fun _ =>
    (passesOn_existingFile scope _).bind fun _ => passesOn_render _
  anchored := rendersLink_include.anchored

theorem orderly_includeOnce : includeOnce.Orderly where
  passesOn scope args := by
    refine (passesOn_ofExcept _).bind fun _ => (passesOn_existingFile scope _).bind fun p => ?_
    refine PassesOn.bind (s := kept "include-once") (fun _ => ⟨False.elim, trivial⟩) fun seen => ?_
    split
    · trivial
    · exact PassesOn.bind (s := keep "include-once" ⟨p.text, ""⟩)
        (fun _ => ⟨False.elim, trivial⟩) fun _ => passesOn_render _
  anchored := rendersLink_includeOnce.anchored

theorem orderly_import : importFile.Orderly where
  passesOn _ _ := by
    refine (passesOn_ofExcept _).bind fun _ => PassesOn.bind (fun x => ⟨?_, passesOn_ofExcept _⟩)
      fun _ => trivial
    rintro ⟨e, rfl⟩
    trivial
  anchored := rendersLink_import.anchored

/-- All builtin commands are orderly. -/
theorem orderly_of_mem_builtin {classes : ClassIndex} {c : Command}
    (h : c ∈ Registry.builtin classes) : c.Orderly := by
  rcases rendersNothing_or_mem_of_mem_builtin h with hnothing | hmem
  · exact hnothing.orderly
  · simp only [List.mem_cons, List.not_mem_nil, or_false] at hmem
    rcases hmem with rfl | rfl | rfl
    · exact orderly_include
    · exact orderly_includeOnce
    · exact orderly_import

end Command
end AgentDocs
