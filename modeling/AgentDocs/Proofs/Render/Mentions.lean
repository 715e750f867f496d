import AgentDocs.Proofs.Command.Orderly
import AgentDocs.Proofs.Render.Dispatches

/-! # Names that a rendering mentions

Two of the builtin commands mention a name, which is their argument; the others mention nothing, and
they have files rendered for their own template only. So what a rendering adds to the mentions is,
in the order of its dispatches, the names that these two commands are given, wherever their snippets
stand. -/
namespace AgentDocs
open Effect Markup Store Session Template

/-- Nothing is mentioned, and files are rendered for one template. -/
def Contract.silent (template : TemplateScope) : Contract where
  asks
    | .render job => job.template = template
    | .importFile template' _ => template' = template
    | .mention _ => False
    | _ => True
  answers _ _ := True

/-- Whether a command mentions no name, and has files rendered for its own template only. -/
def Command.Silent (c : Command) : Prop :=
  ∀ scope args, (c.invoke scope args).Meets (.silent scope.template) (fun _ => True) fun _ => True

/-- Whether names are mentioned by the two commands for references and no others. -/
structure Registry.Refers (registry : Registry) : Prop where
  skill : registry.find? "skill-reference" = some Command.skillReference
  doc : registry.find? "docs-reference" = some Command.docsReference
  silent : ∀ c ∈ registry, c.name ≠ "skill-reference" → c.name ≠ "docs-reference" → c.Silent

namespace Markup.Snippet

/-- The kind of the names that a snippet mentions, if it is a reference. -/
def kind? (s : Snippet) : Option ReferenceKind :=
  if s.name = "skill-reference" then some .skill
  else if s.name = "docs-reference" then some .doc
  else none

/-- What a snippet mentions in a file, if it is a reference with one argument that is not empty. -/
def mention? (file : String) (s : Snippet) : Option Mention :=
  match s.arguments with
  | [name] => if name.isEmpty then none else s.kind?.map (⟨file, ·, name⟩)
  | _ => none

theorem of_mention? {s : Snippet} {file : String} {m : Mention} (h : s.mention? file = some m) :
    s.kind? = some m.kind ∧ s.arguments = [m.name] := by
  unfold mention? at h
  split at h
  · rename_i name harguments
    split at h
    · cases h
    · obtain ⟨kind, hkind, rfl⟩ := Option.map_eq_some_iff.1 h
      exact ⟨hkind, harguments⟩
  · cases h

end Markup.Snippet

namespace Command

theorem RendersLink.silent {c : Command} (h : RendersLink c) : c.Silent := by
  intro scope args
  have hkeeps := h scope args (fun _ => True) (fun _ => True) (fun _ => False) (fun _ => True)
    fun _ => trivial
  refine (hkeeps.transfer (fun a ha => ?_) fun a x _ => links_answers scope _ _ a x).weaken
    (fun _ _ => trivial) fun _ _ => trivial
  cases a with
  | render job =>
    obtain ⟨p, rfl, _⟩ := ha
    rfl
  | importFile template p => exact ha.1
  | mention m => exact ha
  | _ => trivial

theorem Inert.silent {c : Command} (h : Inert c) : c.Silent :=
  RendersLink.silent fun scope args Link There Say G _ => h scope args Link There Say G

/-- A reference either fails or mentions its one argument, which is not empty. -/
theorem invoke_reference (name : String) (kind : ReferenceKind) (what : String) (scope : Scope)
    (args : List String) :
    (∃ e, (reference name kind what).invoke scope args = .fail e ∧
        ∀ mentioned, args = [mentioned] → mentioned.isEmpty = true) ∨
      ∃ mentioned, args = [mentioned] ∧ mentioned.isEmpty = false ∧
        (reference name kind what).invoke scope args =
          .act (.mention ⟨scope.template.source.relative, kind, mentioned⟩) fun _ =>
            .done (ticked mentioned) := by
  match args with
  | [] => exact .inl ⟨_, rfl, nofun⟩
  | _ :: _ :: _ => exact .inl ⟨_, rfl, nofun⟩
  | [mentioned] =>
    cases hempty : mentioned.isEmpty with
    | true =>
      refine .inl ⟨.invalid name ("expects non-empty " ++ what ++ " as argument"), ?_, ?_⟩
      · change (if mentioned.isEmpty then _ else _) = _
        rw [hempty]
        rfl
      · intro other hother
        rw [← List.head_eq_of_cons_eq hother, hempty]
    | false =>
      refine .inr ⟨mentioned, rfl, hempty, ?_⟩
      change (if mentioned.isEmpty then _ else _) = _
      rw [hempty]
      rfl

end Command

theorem Command.silent_or_mem_of_mem_builtin {classes : ClassIndex} {c : Command}
    (h : c ∈ Registry.builtin classes) : c.Silent ∨ c ∈ [skillReference, docsReference] := by
  refine (inert_or_mem_of_mem_builtin h).elim (fun hinert => .inl hinert.silent) ?_
  refine Or.imp_left fun hmem => ?_
  simp only [List.mem_cons, List.not_mem_nil, or_false] at hmem
  rcases hmem with rfl | rfl | rfl
  · exact rendersLink_include.silent
  · exact rendersLink_includeOnce.silent
  · exact rendersLink_import.silent

/-- The builtin commands mention names as references only. -/
theorem Registry.refers_builtin (classes : ClassIndex) : (Registry.builtin classes).Refers where
  skill := rfl
  doc := rfl
  silent c hc hskill hdoc := by
    refine (Command.silent_or_mem_of_mem_builtin hc).resolve_right fun hmem => ?_
    simp only [List.mem_cons, List.not_mem_nil, or_false] at hmem
    rcases hmem with rfl | rfl
    · exact hskill rfl
    · exact hdoc rfl

/-- What snippets mention is added to the mentions of a session, and nothing else to its references.
A reference that is answered mentions something. -/
structure Mentions (file : String) (s : Session) (ds : List Dispatch) (t : Session) : Prop where
  references : t.references = { s.references with
    mentions := s.references.mentions ++ ds.filterMap (·.snippet.mention? file) }
  answered : ∀ d ∈ ds, d.snippet.kind? ≠ none → ∀ text, d.result = .ok text →
    ∃ m, d.snippet.mention? file = some m

namespace Renderer
variable {r : Renderer}

theorem mentions_nil (file : String) {s t : Session} (h : s.references = t.references) :
    Mentions file s [] t := by
  refine ⟨?_, List.forall_mem_nil _⟩
  rw [← h, List.filterMap_nil, List.append_nil]

theorem listing_mentions (file : String) : Listing r (Mentions file) where
  append {s t u ds more} hst htu := by
    refine ⟨?_, fun d hd => ?_⟩
    · rw [htu.references, hst.references, List.filterMap_append, List.append_assoc]
    · exact (List.mem_append.1 hd).elim (hst.answered d) (htu.answered d)
  quiet h := mentions_nil file h.references
  place _ _ _ := mentions_nil file rfl
  add _ _ := mentions_nil file rfl

/-- A reference fails, or its argument is mentioned. -/
theorem mentions_reference {registry : Registry} {item : Snippet} {name : String}
    {kind : ReferenceKind} {what : String} {file : String}
    (hfind : registry.find? item.name = some (Command.reference name kind what))
    (hkind : item.kind? = some kind) {scope : Scope}
    (hscope : scope.template.source.relative = file) (path : Path)
    (inner : Job → Rendering String) (nested : Job → Session → List Dispatch) (s : Session) :
    let script := dispatch registry scope path item
    let out := follow r inner script s
    Mentions file s (⟨scope, path, item, s, out.1, out.2⟩ ::
      scriptDispatches r inner nested script s) out.2 := by
  intro script out
  obtain ⟨e, hinvoke, hempty⟩ | ⟨mentioned, harguments, hempty, hinvoke⟩ :=
    Command.invoke_reference name kind what scope item.arguments
  · have hscript : script = .fail (.ofCommand path item.name e) := by
      dsimp only [script]
      unfold dispatch
      rw [hfind]
      dsimp only
      rw [hinvoke]
      rfl
    have hmention : item.mention? file = none := by
      unfold Snippet.mention?
      split
      · rename_i mentioned harguments
        rw [hempty mentioned harguments, if_pos rfl]
      · rfl
    dsimp only [out]
    rw [hscript]
    refine ⟨?_, List.forall_mem_cons.2 ⟨fun _ _ => nofun, List.forall_mem_nil _⟩⟩
    rw [List.filterMap_cons, hmention]
    exact (congrArg (References.mk _ _) (List.append_nil _)).symm
  · have hscript : script = .act (.mention ⟨file, kind, mentioned⟩) fun _ =>
        .done (some (Command.ticked mentioned).toList) := by
      dsimp only [script]
      unfold dispatch
      rw [hfind]
      dsimp only
      rw [hinvoke, hscope]
      rfl
    have hmention : item.mention? file = some ⟨file, kind, mentioned⟩ := by
      simp only [Snippet.mention?, harguments, hempty, hkind, Option.map_some, Bool.false_eq_true,
        if_false]
    dsimp only [out]
    rw [hscript]
    refine ⟨?_, List.forall_mem_cons.2 ⟨fun _ _ _ => ⟨_, hmention⟩, List.forall_mem_nil _⟩⟩
    rw [List.filterMap_cons, hmention]
    rfl

/-- A snippet mentions its own name, and what is mentioned in the files that it has rendered. -/
theorem snippets_mentions (hr : r.registry.Refers) (template : TemplateScope) :
    Snippets r (Mentions template.source.relative) fun job => job.template = template := by
  intro depth job item s hjob hin script out
  have hscope : (r.scopeOf job).template.source.relative = template.source.relative := by
    rw [scopeOf, hjob]
  by_cases hskill : item.name = "skill-reference"
  · exact mentions_reference (hskill ▸ hr.skill) (if_pos hskill) hscope _ _ _ s
  by_cases hdoc : item.name = "docs-reference"
  · exact mentions_reference (hdoc ▸ hr.doc) ((if_neg hskill).trans (if_pos hdoc)) hscope _ _ _ s
  · -- any other command is silent, and what it has rendered is known
    have hkind : item.kind? = none := (if_neg hskill).trans (if_neg hdoc)
    have hmention : item.mention? template.source.relative = none := by
      unfold Snippet.mention?
      rw [hkind]
      split
      · split <;> rfl
      · rfl
    have hmeets : script.Meets (.listed r (Mentions template.source.relative)
        fun job => job.template = template) (fun _ => True) fun _ => True := by
      refine (meets_dispatch_command (c := .silent template) (fun command hfind => ?_) _).transfer
        (fun a ha => ?_) fun _ _ _ => trivial
      · obtain ⟨hmem, hname⟩ := Registry.mem_of_find? hfind
        have hsilent := hr.silent command hmem (hname ▸ hskill) (hname ▸ hdoc) (r.scopeOf job)
        have htemplate : (r.scopeOf job).template = template := hjob
        rw [htemplate] at hsilent
        exact hsilent item.arguments
      · cases a with
        | mention m => exact ha.elim
        | render | importFile => exact ha
        | ask | keep | kept | note => trivial
    obtain ⟨hreferences, hanswered⟩ := (listing_mentions _).script hin hmeets s
    refine ⟨?_, List.forall_mem_cons.2 ⟨fun h => absurd hkind h, hanswered⟩⟩
    rw [List.filterMap_cons, hmention]
    exact hreferences

/-- A document mentions what the references are given that it dispatches, at any depth. -/
theorem mentions_call (hr : r.registry.Refers) (c : Call) (s : Session) :
    Mentions c.template.source.relative s (r.callDispatches c s) (r.call c s).2 :=
  (listing_mentions _).call (snippets_mentions hr c.template) rfl s

end Renderer
end AgentDocs
