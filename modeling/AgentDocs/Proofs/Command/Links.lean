import AgentDocs.Command.Builtin
import AgentDocs.Markup.Placeholder
import AgentDocs.Proofs.Command.Contract

/-! # What the builtin commands render

Of the builtin commands only three have files rendered, and only the file that their argument
refers to: `include` and `include-once` after they have seen that it is there, and `@import`. They
make up no error of a rendering. Two others mention a name. -/
namespace AgentDocs
open Markup

/-- The file that a snippet refers to, if it includes or imports one. -/
def Scope.linkOf? (scope : Scope) (s : Snippet) : Option Path :=
  match s.arguments with
  | [reference] =>
    if ["include", "include-once", "@import"].contains s.name then some (scope.resolve reference)
    else none
  | _ => none

/-- Whether an error that is caused by a rendering is caused by one with a property. -/
def CommandError.Clean (G : RenderError → Prop) : CommandError → Prop
  | .ofRender e => G e
  | _ => True

/-- Files are rendered as parts if they are linked and there, or imported if they are linked, and
some names may be mentioned. What is said to be a file is there, and renderings fail with errors
that have a property. -/
def Contract.links (scope : Scope) (Link There : Path → Prop) (Say : Template.Mention → Prop)
    (G : RenderError → Prop) : Contract where
  asks
    | .render job => ∃ p, job = scope.part p ∧ Link p ∧ There p
    | .importFile template p => template = scope.template ∧ Link p
    | .mention m => Say m
    | _ => True
  answers
    | .ask (.exists? p (some .file)), x => x = .ok true → Link p → There p
    | .render _, x => ∀ e, x = .error e → G e
    | .importFile _ _, x => ∀ e, x = .error e → e.Clean G
    | _, _ => True

namespace CommandScript
variable {scope : Scope} {Link There : Path → Prop} {Say : Template.Mention → Prop}
  {G : RenderError → Prop} {α : Type}

/-- Whether a script keeps to its links and makes up no error of a rendering. -/
abbrev Keeps (scope : Scope) (Link There : Path → Prop) (Say : Template.Mention → Prop)
    (G : RenderError → Prop) (Q : α → Prop) (s : CommandScript α) : Prop :=
  s.Meets (.links scope Link There Say G) Q (CommandError.Clean G)

theorem keeps_expectArguments (name : String) (args : List String) (least most : Nat) :
    Keeps scope Link There Say G (fun _ => least ≤ args.length ∧ args.length ≤ most)
      (Script.ofExcept (expectArguments name args least most)) := by
  unfold expectArguments
  split
  · assumption
  · trivial

theorem keeps_ofClass (result : Except ClassError α) :
    Keeps scope Link There Say G (fun _ => True) (ofClass result) := by
  cases result <;> trivial

theorem keeps_isFile (p : Path) :
    Keeps scope Link There Say G (fun found => found = true → Link p → There p) (isFile p) := by
  refine ⟨trivial, fun x hx => ?_⟩
  cases x with
  | ok found => exact fun hfound => hx (by rw [hfound])
  | error e => trivial

theorem keeps_readText (p : Path) :
    Keeps scope Link There Say G (fun _ => True) (readText p) := by
  refine ⟨trivial, fun x _ => ?_⟩
  cases x with
  | ok content => cases content <;> trivial
  | error e => trivial

theorem keeps_render {p : Path} (hlink : Link p) (hthere : There p) :
    Keeps scope Link There Say G (fun _ => True) (render (scope.part p)) := by
  refine ⟨⟨p, rfl, hlink, hthere⟩, fun x hx => ?_⟩
  cases x with
  | ok text => trivial
  | error e => exact hx e rfl

theorem keeps_importFile {p : Path} (hlink : Link p) :
    Keeps scope Link There Say G (fun _ => True) (importFile scope p) := by
  refine ⟨⟨rfl, hlink⟩, fun x hx => ?_⟩
  cases x with
  | ok target => trivial
  | error e => exact hx e rfl

end CommandScript

namespace Command
open CommandScript
variable {scope : Scope} {Link There : Path → Prop} {Say : Template.Mention → Prop}
  {G : RenderError → Prop}

/-! ## Commands that render nothing -/

/-- Whether a command has nothing rendered. -/
def RendersNothing (c : Command) : Prop :=
  ∀ scope args Link There G,
    Keeps scope Link There (fun _ => True) G (fun _ => True) (c.invoke scope args)

/-- Whether a command has nothing rendered and mentions no name. -/
def Inert (c : Command) : Prop :=
  ∀ scope args Link There Say G,
    Keeps scope Link There Say G (fun _ => True) (c.invoke scope args)

theorem Inert.rendersNothing {c : Command} (h : Inert c) : RendersNothing c :=
  fun scope args Link There G => h scope args Link There _ G

theorem keeps_describeClass (classes : ClassIndex) (name : String) (visibilities : Option String) :
    Keeps scope Link There Say G (fun _ => True) (describeClass classes name visibilities) :=
  (keeps_ofClass _).bind fun _ _ => trivial

theorem keeps_classSource (classes : ClassIndex) (name : String) :
    Keeps scope Link There Say G (fun _ => True) (classSource classes name) :=
  (keeps_ofClass _).bind fun _ _ => keeps_readText _

theorem inert_dump (classes : ClassIndex) : Inert (dump classes) :=
  fun _ _ _ _ _ _ => (keeps_expectArguments _ _ _ _).bind fun _ _ => keeps_describeClass _ _ _

theorem inert_context (classes : ClassIndex) (description : String) :
    Inert (context classes description) := by
  intro scope args Link There Say G
  refine (keeps_expectArguments _ _ _ _).bind fun _ _ => ?_
  exact (keeps_describeClass _ _ _).bind fun _ _ => ⟨trivial, fun _ _ => trivial⟩

theorem inert_print (classes : ClassIndex) : Inert (print classes) :=
  fun _ _ _ _ _ _ => (keeps_expectArguments _ _ _ _).bind fun _ _ => keeps_classSource _ _

theorem inert_printCodeBlock (classes : ClassIndex) :
    Inert (printCodeBlock classes) := by
  intro scope args Link There Say G
  refine (keeps_expectArguments _ _ _ _).bind fun _ _ => ?_
  exact (keeps_classSource _ _).bind fun _ _ => trivial

theorem inert_className (classes : ClassIndex) : Inert (className classes) := by
  intro scope args Link There Say G
  refine (keeps_expectArguments _ _ _ _).bind fun _ _ => ?_
  dsimp only
  split <;> trivial

theorem keeps_firstFile (files : List String) :
    Keeps scope Link There Say G (fun _ => True) (firstFile scope files) := by
  induction files with
  | nil => trivial
  | cons file files ih =>
    refine (keeps_isFile _).bind fun found _ => ?_
    split
    · trivial
    · exact ih

theorem inert_package (description : String) : Inert (package description) := by
  intro scope args Link There Say G
  refine (keeps_expectArguments _ _ _ _).bind fun _ _ => ?_
  refine (keeps_firstFile _).bind fun found _ => ?_
  cases found with
  | none => trivial
  | some relative => exact ⟨trivial, fun _ _ => trivial⟩

theorem inert_namespaceName (name : String) (count : Nat)
    (pattern : List String → String) : Inert (namespaceName name count pattern) :=
  fun _ _ _ _ _ _ => (keeps_expectArguments _ _ _ _).bind fun _ _ => trivial

theorem inert_docsList : Inert docsList := by
  intro scope args Link There Say G
  refine (keeps_expectArguments _ _ _ _).bind fun _ _ => ?_
  split <;> trivial

theorem rendersNothing_reference (name : String) (kind : Template.ReferenceKind) (what : String) :
    RendersNothing (reference name kind what) := by
  intro scope args Link There G
  refine (keeps_expectArguments _ _ _ _).bind fun _ _ => ?_
  dsimp only
  split
  · trivial
  · exact ⟨trivial, fun _ _ => trivial⟩

/-! ## Commands that render files -/

/-- Whether a command has nothing rendered but the file that its one argument refers to. -/
def RendersLink (c : Command) : Prop :=
  ∀ scope args Link There Say G, (args.length = 1 → Link (scope.resolve (args.getD 0 ""))) →
    Keeps scope Link There Say G (fun _ => True) (c.invoke scope args)

theorem keeps_existingFile (reference : String) :
    Keeps scope Link There Say G (fun p => p = scope.resolve reference ∧ (Link p → There p))
      (existingFile scope reference) := by
  refine (keeps_isFile _).bind fun found hfound => ?_
  split
  · rename_i h
    exact ⟨rfl, hfound h⟩
  · trivial

theorem rendersLink_include : RendersLink includeFile := by
  intro scope args Link There Say G hlink
  refine (keeps_expectArguments _ _ _ _).bind fun _ hlen => ?_
  refine (keeps_existingFile _).bind fun p hp => ?_
  have hp' : Link p := hp.1 ▸ hlink (Nat.le_antisymm hlen.2 hlen.1)
  exact keeps_render hp' (hp.2 hp')

theorem rendersLink_includeOnce : RendersLink includeOnce := by
  intro scope args Link There Say G hlink
  refine (keeps_expectArguments _ _ _ _).bind fun _ hlen => ?_
  refine (keeps_existingFile _).bind fun p hp => ?_
  have hp' : Link p := hp.1 ▸ hlink (Nat.le_antisymm hlen.2 hlen.1)
  have hrender : Keeps scope Link There Say G (fun _ => True) (render (scope.part p)) :=
    keeps_render hp' (hp.2 hp')
  refine ⟨trivial, fun seen _ => ?_⟩
  change Keeps scope Link There Say G (fun _ => True)
    (if seen.any fun e => p.same ⟨e.key⟩ then pure "" else do
      keep "include-once" ⟨p.text, ""⟩
      render (scope.part p))
  split
  · trivial
  · exact ⟨trivial, fun _ _ => hrender⟩

theorem rendersLink_import : RendersLink importFile := by
  intro scope args Link There Say G hlink
  refine (keeps_expectArguments _ _ _ _).bind fun _ hlen => ?_
  exact (keeps_importFile (hlink (Nat.le_antisymm hlen.2 hlen.1))).bind fun _ _ => trivial

/-- Three of the builtin commands have files rendered, and two mention names. -/
theorem inert_or_mem_of_mem_builtin {classes : ClassIndex} {c : Command}
    (h : c ∈ Registry.builtin classes) :
    Inert c ∨ c ∈ [includeFile, includeOnce, importFile] ∨ c ∈ [skillReference, docsReference] := by
  simp only [Registry.builtin, List.mem_cons, List.not_mem_nil, or_false] at h ⊢
  rcases h with rfl | rfl | rfl | rfl | rfl | rfl | rfl | rfl | rfl | rfl | rfl | rfl | rfl | rfl |
    rfl | rfl
  · exact .inl (inert_dump classes)
  · exact .inl (inert_context classes _)
  · exact .inl (inert_package _)
  · exact .inr (.inl (.inr (.inr rfl)))
  · exact .inr (.inl (.inl rfl))
  · exact .inr (.inl (.inr (.inl rfl)))
  · exact .inl (inert_print classes)
  · exact .inl (inert_printCodeBlock classes)
  · exact .inl (inert_className classes)
  · exact .inl (inert_namespaceName _ _ _)
  · exact .inl (inert_namespaceName _ _ _)
  · exact .inl (inert_namespaceName _ _ _)
  · exact .inl (inert_namespaceName _ _ _)
  · exact .inr (.inr (.inl rfl))
  · exact .inr (.inr (.inr rfl))
  · exact .inl inert_docsList

theorem rendersNothing_or_mem_of_mem_builtin {classes : ClassIndex} {c : Command}
    (h : c ∈ Registry.builtin classes) :
    RendersNothing c ∨ c ∈ [includeFile, includeOnce, importFile] := by
  rcases inert_or_mem_of_mem_builtin h with hinert | hmem | hmem
  · exact .inl hinert.rendersNothing
  · exact .inr hmem
  · simp only [List.mem_cons, List.not_mem_nil, or_false] at hmem
    rcases hmem with rfl | rfl
    · exact .inl (rendersNothing_reference _ _ _)
    · exact .inl (rendersNothing_reference _ _ _)

/-- The builtin commands that have a file rendered are those that a link is for. -/
theorem renders_of_mem_builtin {classes : ClassIndex} {c : Command}
    (h : c ∈ Registry.builtin classes) :
    RendersNothing c ∨
      RendersLink c ∧ ["include", "include-once", "@import"].contains c.name = true := by
  refine (rendersNothing_or_mem_of_mem_builtin h).imp_right fun hmem => ?_
  simp only [List.mem_cons, List.not_mem_nil, or_false] at hmem
  rcases hmem with rfl | rfl | rfl
  · exact ⟨rendersLink_include, by decide⟩
  · exact ⟨rendersLink_includeOnce, by decide⟩
  · exact ⟨rendersLink_import, by decide⟩

end Command

theorem Registry.mem_of_find? {name : String} {r : Registry} {c : Command}
    (h : r.find? name = some c) : c ∈ r ∧ c.name = name := by
  induction r with
  | nil => simp [find?] at h
  | cons d r ih =>
    simp only [find?] at h
    split at h
    · rename_i hd
      cases h
      exact ⟨List.mem_cons_self, hd⟩
    · exact (ih h).imp_left (List.mem_cons_of_mem _)

end AgentDocs
