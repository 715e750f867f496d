import AgentDocs.Proofs.Generate.Imports
import AgentDocs.Proofs.Render.Mentions
import AgentDocs.Proofs.Template.Outputs

/-! # Names that a run mentions and declares

Mentions are collected while templates are expanded, and compared with the declared names when all
of them are. So neither the order of the templates nor the place of a mention counts: the check
passes exactly if every name that is mentioned is declared by a template of the run, as a name of
the same kind. -/
namespace AgentDocs
open Effect Store Session Template

namespace Template

/-- The names that directives declare: a skill, and a doc by its target. -/
def Spec.declared (spec : Spec) : List (ReferenceKind × String) :=
  spec.skill.toList.map (fun s => (.skill, s.knownAs)) ++
    spec.docs.toList.map fun d => (.doc, d.target)

/-- The names that a template declares. Headers declare none. -/
def declared (t : Template) : List (ReferenceKind × String) :=
  match t.kind with
  | .directives spec => spec.declared
  | .headers _ => []

/-- The name that a file declares. -/
def OutputKind.declared? : OutputKind → Option (ReferenceKind × String)
  | .skill name => some (.skill, name)
  | .doc d => some (.doc, d.target)
  | .command | .plain => none

/-- The files of a template declare what its directives do. -/
theorem declared_of_outputs {spec : Spec} {base : Option String} {content : String}
    {outputs : List Output} (h : spec.outputs base content = .ok outputs) :
    outputs.filterMap (·.kind.declared?) = spec.declared := by
  have hkinds : outputs.filterMap (·.kind.declared?) = spec.kinds.filterMap (·.declared?) := by
    rw [← kinds_of_outputs h, List.filterMap_map]
    rfl
  rw [hkinds, Spec.kinds, Spec.declared]
  cases spec.skill <;> cases spec.output <;> cases spec.docs <;>
    simp [OutputKind.declared?, List.filterMap_append]

end Template

/-- What is mentioned and what is declared between two sessions. -/
structure Collects (mentions : List Mention) (names : List (ReferenceKind × String))
    (s t : Session) : Prop where
  mentions : t.references.mentions = s.references.mentions ++ mentions
  known : ∀ m, t.references.isKnown m = true ↔
    s.references.isKnown m = true ∨ (m.kind, m.name) ∈ names

namespace Collects
variable {mentions later : List Mention} {names others : List (ReferenceKind × String)}
  {s t u : Session}

theorem of_eq (h : s.references = t.references) : Collects [] [] s t := by
  refine ⟨?_, fun m => ?_⟩
  · rw [h, List.append_nil]
  · rw [h]
    exact (or_iff_left List.not_mem_nil).symm

theorem append (hst : Collects mentions names s t) (htu : Collects later others t u) :
    Collects (mentions ++ later) (names ++ others) s u where
  mentions := by rw [htu.mentions, hst.mentions, List.append_assoc]
  known m := by rw [htu.known, hst.known, List.mem_append, or_assoc]

/-- A name that is added is known, and nothing else becomes known. -/
theorem add (kind : ReferenceKind) (name : String) (s : Session) :
    Collects [] [(kind, name)] s { s with references := s.references.add kind name } := by
  refine ⟨?_, fun m => ?_⟩
  · rw [List.append_nil]
    cases kind <;> rfl
  · obtain ⟨file, kind', name'⟩ := m
    cases kind <;> cases kind' <;>
      simp [References.isKnown, References.add, or_comm]

end Collects

namespace Generator
variable {g : Generator} {done after : Progress} {t : Template} {s u : Session}

theorem collects_addOutput {origin : String} {output : Output}
    (h : addOutput origin done output s = (.ok after, u)) :
    Collects [] output.kind.declared?.toList s u := by
  obtain ⟨docs, s₁, hdeclare, h⟩ := exists_of_bind_ok h
  obtain ⟨artifacts, s₂, hinsert, h⟩ := exists_of_bind_ok h
  cases h
  obtain rfl : s₁ = u := congrArg (·.2) hinsert
  cases hkind : output.kind with
  | skill name =>
    rw [hkind] at hdeclare
    cases hdeclare
    exact Collects.add .skill name s
  | doc d =>
    rw [hkind] at hdeclare
    obtain ⟨docs, s₂, hclaim, hdeclare⟩ := exists_of_bind_ok hdeclare
    obtain rfl : s = s₂ := congrArg (·.2) hclaim
    cases hdeclare
    exact Collects.add .doc d.target s
  | command | plain =>
    rw [hkind] at hdeclare
    cases hdeclare
    exact .of_eq rfl

theorem collects_outputs {origin : String} {outputs : List Output}
    (h : outputs.foldlM (addOutput origin) done s = (.ok after, u)) :
    Collects [] (outputs.filterMap (·.kind.declared?)) s u := by
  induction outputs generalizing done s with
  | nil =>
    cases h
    exact .of_eq rfl
  | cons output outputs ih =>
    rw [List.foldlM_cons] at h
    obtain ⟨done', s', hfirst, hrest⟩ := exists_of_bind_ok h
    have hall := (collects_addOutput hfirst).append (ih hrest)
    rw [List.filterMap_cons]
    cases hdeclared : output.kind.declared? <;> rw [hdeclared] at hall <;> exact hall

/-- What a template declares is known once it is expanded. -/
theorem collects_finish {p : Plan} {s₀ s₁ : Session} (hplan : plan g done t s₀ = (.ok p, s₁))
    {body : String} (h : p.finish body s = (.ok after, u)) : Collects [] t.declared s u := by
  unfold Template.declared
  obtain ⟨spec, hkind, hfinish, _⟩ | ⟨headers, targets, commands, _, _, hkind, _, _, hfinish, _⟩ :=
    (plan_cases hplan).2 <;> rw [hfinish] at h <;> rw [hkind] <;> dsimp only
  · obtain ⟨content, s₂, hcontent, h⟩ := exists_of_bind_ok h
    obtain ⟨outputs, s₃, houtputs, h⟩ := exists_of_bind_ok h
    have houtputs' : spec.outputs g.project.docsBase content = .ok outputs :=
      Except.of_mapError_ok (congrArg (·.1) houtputs)
    obtain rfl : s₂ = s₃ := congrArg (·.2) houtputs
    rw [← declared_of_outputs houtputs']
    have hsame : SameLedger s s₂ := (Renderer.sameLedger_onStore _).arrives s content s₂ hcontent
    exact (Collects.of_eq hsame.references).append (collects_outputs h)
  · have hmoves : Moves SameLedger (finishHeaders t targets commands done body) :=
      Moves.bind (moves_foldlM (fun _ _ => moves_mk _) _ _) fun _ => moves_pure _
    exact .of_eq (hmoves.arrives s after u h).references

/-! ## Expanding templates -/

/-- What the references mention that are dispatched for a template. -/
def templateMentions (g : Generator) (done : Progress) (t : Template) (s : Session) :
    List Mention :=
  (templateDispatches g done t s).filterMap (·.snippet.mention? t.source.relative)

/-- What is mentioned while templates are expanded one after the other. -/
def expandMentions (g : Generator) : Progress → List Template → Session → List Mention
  | _, [], _ => []
  | done, t :: rest, s =>
    templateMentions g done t s ++
      Within.ifAnswered (expand g g.renderer g.overrides done t s) fun done s =>
        expandMentions g done rest s

/-- Whether every reference that is answered is among some mentions, with its argument. -/
def Answered (ds : List Dispatch) (mentions : List Mention) : Prop :=
  ∀ d ∈ ds, d.snippet.kind? ≠ none → ∀ text, d.result = .ok text →
    ∃ m ∈ mentions, d.snippet.kind? = some m.kind ∧ d.snippet.arguments = [m.name]

/-- The text of a template mentions names, and its directives declare some. -/
theorem collects_expand (hrefers : g.registry.Refers)
    (h : expand g g.renderer g.overrides done t s = (.ok after, u)) :
    Collects (templateMentions g done t s) t.declared s u ∧
      Answered (templateDispatches g done t s) (templateMentions g done t s) := by
  rw [expand_eq] at h
  obtain ⟨p, s₁, hplan, h⟩ := exists_of_bind_ok h
  obtain ⟨body, s₂, hbody, h⟩ := exists_of_bind_ok h
  have hsource : (p.call t).template.source = t.source := (plan_cases hplan).1
  have hcall : (g.renderer.call (p.call t) s₁).2 = s₂ := congrArg (·.2) hbody
  have hmentions := Renderer.mentions_call (r := g.renderer) hrefers (p.call t) s₁
  rw [hsource, hcall] at hmentions
  have hdispatches : templateDispatches g done t s = g.renderer.callDispatches (p.call t) s₁ := by
    rw [templateDispatches, hplan]
    rfl
  have hbegin : SameLedger s s₁ := (sameLedger_plan done t).arrives s p s₁ hplan
  have hmiddle : Collects (templateMentions g done t s) [] s₁ s₂ := by
    rw [templateMentions, hdispatches]
    refine ⟨congrArg References.mentions hmentions.references, fun m => ?_⟩
    rw [hmentions.references]
    exact (or_iff_left List.not_mem_nil).symm
  refine ⟨?_, fun d hd hkind text hresult => ?_⟩
  · have hend : Collects [] t.declared s₂ u := collects_finish hplan h
    have hall := ((Collects.of_eq hbegin.references).append hmiddle).append hend
    rwa [List.nil_append, List.append_nil, List.nil_append] at hall
  · have hd' : d ∈ g.renderer.callDispatches (p.call t) s₁ := by rwa [← hdispatches]
    obtain ⟨m, hm⟩ := hmentions.answered d hd' hkind text hresult
    exact ⟨m, List.mem_filterMap.2 ⟨d, hd, hm⟩, Markup.Snippet.of_mention? hm⟩

/-- What templates mention and declare is collected, in whatever order they are expanded. -/
theorem collects_templates (hrefers : g.registry.Refers) {templates : List Template}
    (h : templates.foldlM (expand g g.renderer g.overrides) done s = (.ok after, u)) :
    Collects (expandMentions g done templates s) (templates.flatMap Template.declared) s u ∧
      Answered (expandDispatches g done templates s) (expandMentions g done templates s) := by
  induction templates generalizing done s with
  | nil =>
    cases h
    exact ⟨.of_eq rfl, List.forall_mem_nil _⟩
  | cons t rest ih =>
    rw [List.foldlM_cons] at h
    obtain ⟨done', s', hexpand, hrest⟩ := exists_of_bind_ok h
    obtain ⟨hfirst, hanswered⟩ := collects_expand hrefers hexpand
    obtain ⟨hlater, hlast⟩ := ih hrest
    have hmentions : expandMentions g done (t :: rest) s
        = templateMentions g done t s ++ expandMentions g done' rest s' := by
      rw [expandMentions, hexpand]
      rfl
    have hdispatches : expandDispatches g done (t :: rest) s
        = templateDispatches g done t s ++ expandDispatches g done' rest s' := by
      rw [expandDispatches, hexpand]
      rfl
    rw [hmentions, hdispatches, List.flatMap_cons]
    refine ⟨hfirst.append hlater, fun d hd hkind text hresult => ?_⟩
    rcases List.mem_append.1 hd with hd | hd
    · obtain ⟨m, hm, hnamed⟩ := hanswered d hd hkind text hresult
      exact ⟨m, List.mem_append_left _ hm, hnamed⟩
    · obtain ⟨m, hm, hnamed⟩ := hlast d hd hkind text hresult
      exact ⟨m, List.mem_append_right _ hm, hnamed⟩

/-! ## The check -/

/-- Whether a name is declared, as a name of the same kind, by one of some templates. -/
def Declared (templates : List Template) (m : Mention) : Prop :=
  ∃ t ∈ templates, (m.kind, m.name) ∈ t.declared

/-- If all templates are expanded that a run has found, in whatever order, then the check passes
exactly if every name that is mentioned is declared by one of them. Otherwise it fails with the
first mention of a name that is not, in the template in which it was made. What is mentioned is what
the references are given that are dispatched at any depth: none is answered without a mention. -/
theorem references_checked (g : Generator) (store : Store)
    (order : List Template → List Template) {previous : Manifest} {templates : List Template}
    {s u : Session} {done : Progress} (hrefers : g.registry.Refers)
    (hfound : approachBy order g (start store) = (.ok (previous, templates), s))
    (hexpanded : templates.foldlM (expand g g.renderer g.overrides) ⟨.empty g.project.root, []⟩ s
      = (.ok done, u)) :
    let mentions := expandMentions g ⟨.empty g.project.root, []⟩ templates s
    Answered (expandDispatches g ⟨.empty g.project.root, []⟩ templates s) mentions ∧
      ((checkReferences u).1 = .ok () ↔ ∀ m ∈ mentions, Declared templates m) ∧
      ∀ e, (checkReferences u).1 = .error e → ∃ earlier m later,
        mentions = earlier ++ m :: later ∧ e = .unknownReference m ∧
        ¬Declared templates m ∧ ∀ m' ∈ earlier, Declared templates m' := by
  intro mentions
  obtain ⟨hcollects, hanswered⟩ := collects_templates hrefers hexpanded
  have hempty : s.references = .empty := by
    obtain ⟨store', rfl⟩ := approachBy_ok hfound
    rfl
  have hmentions : u.references.mentions = mentions := by
    rw [hcollects.mentions, hempty]
    rfl
  have hknown : ∀ m, u.references.isKnown m = true ↔ Declared templates m := by
    intro m
    have hnone : References.empty.isKnown m = false := by
      obtain ⟨_, kind, _⟩ := m
      cases kind <;> rfl
    rw [hcollects.known, hempty, hnone, List.mem_flatMap]
    exact or_iff_right Bool.false_ne_true
  refine ⟨hanswered, ?_⟩
  obtain ⟨hcheck, hall⟩ | ⟨earlier, m, later, hsplit, hcheck, hm, hearlier⟩ :=
    checkReferences_cases u
  · rw [hmentions] at hall
    rw [hcheck]
    exact ⟨iff_of_true rfl fun m hm => (hknown m).1 (hall m hm), nofun⟩
  · rw [hmentions] at hsplit
    have hunknown : ¬Declared templates m := by
      rw [← hknown m, hm]
      exact Bool.false_ne_true
    have hmem : m ∈ mentions := by
      rw [hsplit]
      exact List.mem_append_right _ List.mem_cons_self
    rw [hcheck]
    refine ⟨iff_of_false nofun fun hall => hunknown (hall m hmem), fun e he => ?_⟩
    cases he
    exact ⟨earlier, m, later, hsplit, rfl, hunknown, fun m' hm' => (hknown m').1 (hearlier m' hm')⟩

/-- A template that includes a mention of a skill, and one that declares the skill. -/
def laterSkill : Memory :=
  ((Memory.empty.put ⟨"/w/s/a.md"⟩ (.text "---\ntarget: a\n---\n\x7b\x7binclude: _p\x7d\x7d")).put
    ⟨"/w/s/_p"⟩ (.text "\x7b\x7bskill-reference: k\x7d\x7d")).put
    ⟨"/w/s/b.md"⟩ (.text "---\nskill:\n  target: x/k\n  name: K\n  description: D\n---\nB")

/-- The mention is before the skill in the order of the templates, and the check passes. -/
theorem later_skill_declared :
    ∃ previous templates s done u,
      approachBy (List.insertionSort NotAfter) atShort (start (.memory laterSkill))
        = (.ok (previous, templates), s) ∧
      templates.foldlM (expand atShort atShort.renderer atShort.overrides)
        ⟨.empty atShort.project.root, []⟩ s = (.ok done, u) ∧
      expandMentions atShort ⟨.empty atShort.project.root, []⟩ templates s
        = [⟨"s/a.md", .skill, "k"⟩] ∧
      (checkReferences u).1 = .ok () := by
  obtain ⟨hexpands, hmentions, hdeclared⟩ :
      ((approachBy (List.insertionSort NotAfter) atShort >>= fun found =>
        found.2.foldlM (expand atShort atShort.renderer atShort.overrides)
          ⟨.empty atShort.project.root, []⟩)
          (start (.memory laterSkill))).1.toOption.isSome = true ∧
      (Within.ifAnswered (approachBy (List.insertionSort NotAfter) atShort
          (start (.memory laterSkill))) fun found s =>
        expandMentions atShort ⟨.empty atShort.project.root, []⟩ found.2 s)
        = [⟨"s/a.md", .skill, "k"⟩] ∧
      (Within.ifAnswered (approachBy (List.insertionSort NotAfter) atShort
          (start (.memory laterSkill))) fun found _ => found.2.flatMap Template.declared)
        = [(.skill, "k")] := by
    decide +kernel
  cases hall : (approachBy (List.insertionSort NotAfter) atShort >>= fun found =>
      found.2.foldlM (expand atShort atShort.renderer atShort.overrides)
        ⟨.empty atShort.project.root, []⟩) (start (.memory laterSkill)) with
  | mk result u =>
    rw [hall] at hexpands
    cases result with
    | error e => cases hexpands
    | ok done =>
      obtain ⟨⟨previous, templates⟩, s, hfound, hexpanded⟩ := exists_of_bind_ok hall
      rw [hfound] at hmentions hdeclared
      obtain ⟨_, hiff, _⟩ := references_checked atShort _ _ (Registry.refers_builtin _) hfound
        hexpanded
      refine ⟨previous, templates, s, done, u, hfound, hexpanded, hmentions, hiff.2 ?_⟩
      intro m hm
      rw [show expandMentions _ _ templates s = _ from hmentions] at hm
      have hmem : (ReferenceKind.skill, "k") ∈ templates.flatMap Template.declared := by
        rw [show templates.flatMap Template.declared = _ from hdeclared]
        exact List.mem_cons_self
      rw [List.mem_singleton.1 hm]
      exact List.mem_flatMap.1 hmem

end Generator
end AgentDocs
