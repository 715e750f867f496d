import AgentDocs.Proofs.Command.Links

/-! # What commands keep

Entries are kept under the name of a command. A command that uses its own name only leaves alone
what others have kept; one that has files rendered as documents only lets no other command keep
anything for the document in which it stands. -/
namespace AgentDocs

/-- Entries are kept under one name, and some files are rendered. -/
def Contract.keeping (name : String) (Fit : Job → Prop) : Contract where
  asks
    | .keep other _ => other = name
    | .render job => Fit job
    | _ => True
  answers _ _ := True

namespace CommandScript
variable {name : String} {Fit : Job → Prop} {α : Type}

abbrev Keeping (name : String) (Fit : Job → Prop) (s : CommandScript α) : Prop :=
  s.Meets (.keeping name Fit) (fun _ => True) fun _ => True

theorem keeping_ofExcept (result : Except CommandError α) :
    Keeping name Fit (Script.ofExcept result) := by
  cases result <;> trivial

theorem keeping_ask (question : Store.Question) : Keeping name Fit (ask question) :=
  ⟨trivial, fun _ _ => keeping_ofExcept _⟩

theorem keeping_readText (p : Path) : Keeping name Fit (readText p) :=
  (keeping_ask _).bind fun _ _ => keeping_ofExcept _

theorem keeping_keep (e : Entry) : Keeping name Fit (keep name e) := ⟨rfl, fun _ _ => trivial⟩

theorem keeping_render {job : Job} (h : Fit job) : Keeping name Fit (render job) :=
  ⟨h, fun _ _ => keeping_ofExcept _⟩

end CommandScript

namespace Command
open CommandScript
variable {name : String} {Fit : Job → Prop}

/-- Whether a command keeps entries under its own name only, and has some files rendered only. -/
def KeepsOwnWith (Fit : Job → Prop) (c : Command) : Prop :=
  ∀ scope args, Keeping c.name Fit (c.invoke scope args)

/-- Whether a command keeps entries under its own name only. -/
abbrev KeepsOwn (c : Command) : Prop := c.KeepsOwnWith fun _ => True

/-- Whether a command also has no file rendered as a part of the document. -/
abbrev KeepsApart (c : Command) : Prop := c.KeepsOwnWith (·.mode = .document)

/-! ## The builtin commands -/

theorem keeping_describeClass (classes : ClassIndex) (class_ : String)
    (visibilities : Option String) : Keeping name Fit (describeClass classes class_ visibilities) :=
  (keeping_ofExcept _).bind fun _ _ => trivial

theorem keeping_classSource (classes : ClassIndex) (class_ : String) :
    Keeping name Fit (classSource classes class_) :=
  (keeping_ofExcept _).bind fun _ _ => keeping_readText _

theorem keeping_firstFile (scope : Scope) (files : List String) :
    Keeping name Fit (firstFile scope files) := by
  induction files with
  | nil => trivial
  | cons file files ih =>
    refine (keeping_ask _).bind fun found _ => ?_
    split
    · trivial
    · exact ih

theorem keeping_existingFile (scope : Scope) (reference : String) :
    Keeping name Fit (existingFile scope reference) := by
  refine (keeping_ask _).bind fun found _ => ?_
  split <;> trivial

theorem keeps_dump (classes : ClassIndex) : (dump classes).KeepsOwnWith Fit := fun _ _ =>
  (keeping_ofExcept _).bind fun _ _ => keeping_describeClass _ _ _

theorem keeps_context (classes : ClassIndex) (description : String) :
    (context classes description).KeepsOwnWith Fit := by
  intro scope args
  refine (keeping_ofExcept _).bind fun _ _ => (keeping_describeClass _ _ _).bind fun _ _ => ?_
  exact (keeping_keep _).bind fun _ _ => trivial

theorem keeps_print (classes : ClassIndex) : (print classes).KeepsOwnWith Fit := fun _ _ =>
  (keeping_ofExcept _).bind fun _ _ => keeping_classSource _ _

theorem keeps_printCodeBlock (classes : ClassIndex) : (printCodeBlock classes).KeepsOwnWith Fit :=
  fun _ _ => (keeping_ofExcept _).bind fun _ _ => (keeping_classSource _ _).bind fun _ _ => trivial

theorem keeps_className (classes : ClassIndex) : (className classes).KeepsOwnWith Fit := by
  intro scope args
  refine (keeping_ofExcept _).bind fun _ _ => ?_
  dsimp only
  split <;> trivial

theorem keeps_package (description : String) : (package description).KeepsOwnWith Fit := by
  intro scope args
  refine (keeping_ofExcept _).bind fun _ _ => (keeping_firstFile _ _).bind fun found _ => ?_
  cases found with
  | none => trivial
  | some relative => exact (keeping_keep _).bind fun _ _ => trivial

theorem keeps_importFile : importFile.KeepsOwnWith Fit := fun _ _ =>
  (keeping_ofExcept _).bind fun _ _ =>
    Script.Meets.bind (Q := fun _ => True) ⟨trivial, fun _ _ => keeping_ofExcept _⟩
      fun _ _ => trivial

theorem keeps_include (h : ∀ (scope : Scope) p, Fit (scope.part p)) :
    includeFile.KeepsOwnWith Fit := fun _ _ =>
  (keeping_ofExcept _).bind fun _ _ =>
    (keeping_existingFile _ _).bind fun _ _ => keeping_render (h _ _)

theorem keeps_includeOnce (h : ∀ (scope : Scope) p, Fit (scope.part p)) :
    includeOnce.KeepsOwnWith Fit := by
  intro scope args
  refine (keeping_ofExcept _).bind fun _ _ => (keeping_existingFile _ _).bind fun p _ => ?_
  refine Script.Meets.bind (Q := fun _ => True) ⟨trivial, fun _ _ => trivial⟩ fun seen _ => ?_
  split
  · trivial
  · exact (keeping_keep _).bind fun _ _ => keeping_render (h _ _)

theorem keeps_namespaceName (name : String) (count : Nat) (pattern : List String → String) :
    (namespaceName name count pattern).KeepsOwnWith Fit := fun _ _ =>
  (keeping_ofExcept _).bind fun _ _ => trivial

theorem keeps_reference (name : String) (kind : Template.ReferenceKind) (what : String) :
    (reference name kind what).KeepsOwnWith Fit := by
  intro scope args
  refine (keeping_ofExcept _).bind fun _ _ => ?_
  dsimp only
  split
  · trivial
  · exact ⟨trivial, fun _ _ => trivial⟩

theorem keeps_docsList : docsList.KeepsOwnWith Fit := by
  intro scope args
  refine (keeping_ofExcept _).bind fun _ _ => ?_
  split <;> trivial

/-- Only two of the builtin commands have parts rendered. -/
theorem keeps_of_mem_builtin {classes : ClassIndex} {c : Command}
    (hc : c ∈ Registry.builtin classes)
    (hparts : c ∈ [includeFile, includeOnce] → ∀ (scope : Scope) p, Fit (scope.part p)) :
    c.KeepsOwnWith Fit := by
  simp only [Registry.builtin, List.mem_cons, List.not_mem_nil, or_false] at hc hparts
  rcases hc with rfl | rfl | rfl | rfl | rfl | rfl | rfl | rfl | rfl | rfl | rfl | rfl | rfl | rfl |
    rfl | rfl
  · exact keeps_dump classes
  · exact keeps_context classes _
  · exact keeps_package _
  · exact keeps_importFile
  · exact keeps_include (hparts (.inl rfl))
  · exact keeps_includeOnce (hparts (.inr rfl))
  · exact keeps_print classes
  · exact keeps_printCodeBlock classes
  · exact keeps_className classes
  · exact keeps_namespaceName _ _ _
  · exact keeps_namespaceName _ _ _
  · exact keeps_namespaceName _ _ _
  · exact keeps_namespaceName _ _ _
  · exact keeps_reference _ _ _
  · exact keeps_reference _ _ _
  · exact keeps_docsList

theorem keepsOwn_of_mem_builtin {classes : ClassIndex} {c : Command}
    (hc : c ∈ Registry.builtin classes) : c.KeepsOwn :=
  keeps_of_mem_builtin hc fun _ _ _ => trivial

end Command
end AgentDocs
