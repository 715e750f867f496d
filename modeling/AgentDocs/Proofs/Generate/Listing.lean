import AgentDocs.Proofs.Generate.Order
import AgentDocs.Proofs.Generate.References
import AgentDocs.Proofs.Render.DocsList

/-! # The docs that a main template lists

The docs that templates declare are added to an index in the order in which the templates are
expanded. When a main template is planned the index is that of all templates before it, and this is
what its lists of docs show. -/
namespace AgentDocs
open Effect Markup Store Session Template

namespace Template

/-- The docs that a template declares. Headers declare none. -/
def docs (t : Template) : List Doc :=
  match t.kind with
  | .directives spec => spec.docs.toList
  | .headers _ => []

def OutputKind.doc? : OutputKind → Option Doc
  | .doc d => some d
  | .skill _ | .command | .plain => none

/-- How a doc is listed: by its path in the directory for docs, which is below the root. -/
def Doc.entry (d : Doc) (base : String) : ListedDoc :=
  let dir := Text.trimSlashes base
  let target := Text.dropSlashes d.target
  ⟨if dir.isEmpty then target else dir ++ "/" ++ target, d.description⟩

theorem collect_eq {docs : List Doc} {base : Option String} {listed : List ListedDoc}
    (h : collect docs base = some listed) : listed = docs.map (·.entry (base.getD "")) := by
  unfold collect at h
  split at h
  · rename_i hempty
    rw [List.isEmpty_iff.1 hempty, ← Option.some.inj h]
    rfl
  · obtain ⟨base, rfl, rfl⟩ := Option.map_eq_some_iff.1 h
    rfl

theorem docs_of_outputs {spec : Spec} {base : Option String} {content : String}
    {outputs : List Output} (h : spec.outputs base content = .ok outputs) :
    outputs.filterMap (·.kind.doc?) = spec.docs.toList := by
  have hkinds : outputs.filterMap (·.kind.doc?) = spec.kinds.filterMap (·.doc?) := by
    rw [← kinds_of_outputs h, List.filterMap_map]
    rfl
  rw [hkinds, Spec.kinds]
  cases spec.skill <;> cases spec.output <;> cases spec.docs <;>
    simp [OutputKind.doc?, List.filterMap_append]

end Template

namespace Generator
variable {g : Generator} {t : Template} {done middle after : Progress} {s u : Session}

/-- The docs of an index. -/
def Progress.declared (p : Progress) : List Doc := p.docs.map (·.1)

/-- Docs that are added to the index; no two have one target. -/
structure Declares (docs : List Doc) (done after : Progress) : Prop where
  declared : after.declared = done.declared ++ docs
  targets : (done.declared.map (·.target)).Nodup → (after.declared.map (·.target)).Nodup

namespace Declares
variable {docs more : List Doc}

theorem of_eq (h : done.docs = after.docs) : Declares [] done after := by
  refine ⟨?_, ?_⟩ <;> rw [Progress.declared, Progress.declared, h]
  · exact (List.append_nil _).symm
  · exact id

theorem append (h : Declares docs done middle) (h' : Declares more middle after) :
    Declares (docs ++ more) done after :=
  ⟨by rw [h'.declared, h.declared, List.append_assoc], fun hnodup => h'.targets (h.targets hnodup)⟩

/-- A doc that is claimed has a target of its own. -/
theorem of_claimDoc {doc : Doc} {origin : String} {index : DocsIndex}
    (h : claimDoc done.docs doc origin = .ok index) (hafter : after.docs = index) :
    Declares [doc] done after := by
  unfold claimDoc at h
  split at h
  · cases h
  · rename_i hnone
    cases h
    have hdeclared : after.declared = done.declared ++ [doc] := by
      rw [Progress.declared, hafter, List.map_append]
      rfl
    refine ⟨hdeclared, fun hnodup => ?_⟩
    rw [hdeclared, List.map_append, List.map_singleton]
    refine List.nodup_append.2 ⟨hnodup, List.nodup_singleton _, fun target htarget other hother => ?_⟩
    obtain ⟨d, hd, rfl⟩ := List.mem_map.1 htarget
    obtain ⟨⟨d, origin⟩, hmem, rfl⟩ := List.mem_map.1 hd
    rw [List.mem_singleton.1 hother]
    simpa using List.find?_eq_none.1 hnone (d, origin) hmem

end Declares

theorem declares_addOutput {origin : String} {output : Output}
    (h : addOutput origin done output s = (.ok after, u)) :
    Declares output.kind.doc?.toList done after := by
  obtain ⟨docs, s₁, hdeclare, h⟩ := exists_of_bind_ok h
  obtain ⟨artifacts, s₂, hinsert, h⟩ := exists_of_bind_ok h
  cases h
  cases hkind : output.kind with
  | doc d =>
    rw [hkind] at hdeclare
    obtain ⟨index, s₃, hclaim, hdeclare⟩ := exists_of_bind_ok hdeclare
    cases hdeclare
    exact .of_claimDoc (congrArg (·.1) hclaim) rfl
  | skill | command | plain =>
    rw [hkind] at hdeclare
    cases hdeclare
    exact .of_eq rfl

theorem declares_outputs {origin : String} {outputs : List Output}
    (h : outputs.foldlM (addOutput origin) done s = (.ok after, u)) :
    Declares (outputs.filterMap (·.kind.doc?)) done after := by
  induction outputs generalizing done s with
  | nil =>
    cases h
    exact .of_eq rfl
  | cons output outputs ih =>
    rw [List.foldlM_cons] at h
    obtain ⟨done', s', hfirst, hrest⟩ := exists_of_bind_ok h
    have hall := (declares_addOutput hfirst).append (ih hrest)
    rw [List.filterMap_cons]
    cases hdoc : output.kind.doc? <;> rw [hdoc] at hall <;> exact hall

/-- A template that is expanded adds its docs. -/
theorem declares_expand (h : expand g g.renderer g.overrides done t s = (.ok after, u)) :
    Declares t.docs done after := by
  rw [expand_eq] at h
  obtain ⟨p, s₁, hplan, h⟩ := exists_of_bind_ok h
  obtain ⟨body, s₂, _, h⟩ := exists_of_bind_ok h
  unfold Template.docs
  obtain ⟨spec, hkind, hfinish, _⟩ | ⟨headers, targets, commands, _, _, hkind, _, _, hfinish, _⟩ :=
    (plan_cases hplan).2 <;> rw [hfinish] at h <;> rw [hkind] <;> dsimp only
  · obtain ⟨content, s₃, _, h⟩ := exists_of_bind_ok h
    obtain ⟨outputs, s₄, houtputs, h⟩ := exists_of_bind_ok h
    have houtputs : spec.outputs g.project.docsBase content = .ok outputs :=
      Except.of_mapError_ok (congrArg (·.1) houtputs)
    rw [← docs_of_outputs houtputs]
    exact declares_outputs h
  · obtain ⟨artifacts, s₃, _, h⟩ := exists_of_bind_ok h
    cases h
    exact .of_eq rfl

theorem declares_templates {templates : List Template}
    (h : templates.foldlM (expand g g.renderer g.overrides) done s = (.ok after, u)) :
    Declares (templates.flatMap Template.docs) done after := by
  induction templates generalizing done s with
  | nil =>
    cases h
    exact .of_eq rfl
  | cons t rest ih =>
    rw [List.foldlM_cons] at h
    obtain ⟨done', s', hexpand, hrest⟩ := exists_of_bind_ok h
    rw [List.flatMap_cons]
    exact (declares_expand hexpand).append (ih hrest)

/-- A main template is planned with the docs of the index. -/
theorem listed_of_plan {spec : Spec} (hkind : t.kind = .directives spec) (hmain : spec.main = true)
    {p : Plan} (h : plan g done t s = (.ok p, u)) :
    p.template.docs = some (done.declared.map (·.entry (g.project.docsBase.getD ""))) := by
  obtain ⟨parameters, s₁, _, h⟩ := exists_of_bind_ok h
  rw [hkind] at h
  obtain ⟨listed, s₂, hlisted, h⟩ := exists_of_bind_ok h
  cases h
  have hlisted : listedDocs g.project spec t.source.relative done.docs = .ok listed :=
    congrArg (·.1) hlisted
  unfold listedDocs at hlisted
  rw [if_pos hmain] at hlisted
  split at hlisted
  · rename_i docs hdocs
    cases hlisted
    exact congrArg some (collect_eq hdocs)
  · cases hlisted

/-! ## What is listed -/

/-- Whether a dispatch shows some docs: it has a line for each of them, in order and numbered from
one, unless it has arguments. -/
structure Shows (docs : List ListedDoc) (d : Dispatch) : Prop where
  lines : d.snippet.arguments = [] → ∃ lines : List String, lines.length = docs.length ∧
    (∀ i, lines[i]? = docs[i]?.map (Command.docLine · (i + 1))) ∧
    d.result = .ok (some (Text.joined "\n" lines).toList)
  refused : d.snippet.arguments ≠ [] → d.result = .error (.ofCommand d.path d.snippet.name
    (.arity "docs-list" 0 0 d.snippet.arguments.length))

theorem shows_of_eq {docs : List ListedDoc} {d : Dispatch}
    (h : d.result = Renderer.listed docs d.path d.snippet) : Shows docs d := by
  unfold Renderer.listed at h
  refine ⟨fun hnone => ⟨Renderer.docLines docs, ?_, Renderer.getElem?_docLines docs, ?_⟩,
    fun hsome => ?_⟩
  · rw [Renderer.docLines, List.length_map, List.length_zipIdx]
  · rw [h, if_pos hnone]
  · rw [h, if_neg hsome]

theorem shows_of_mem_templateDispatches (hlists : g.registry.Lists) {spec : Spec}
    (hkind : t.kind = .directives spec) (hmain : spec.main = true) {d : Dispatch}
    (hd : d ∈ templateDispatches g done t s) (hname : d.snippet.name = "docs-list") :
    Shows (done.declared.map (·.entry (g.project.docsBase.getD ""))) d := by
  obtain ⟨p, u, hplan, hd⟩ := Within.exists_of_mem_ifAnswered hd
  exact shows_of_eq (Renderer.docsList_of_mem_callDispatches (r := g.renderer) hlists
    (listed_of_plan hkind hmain hplan) hd hname)

/-- A main template that was found has the directive for it. -/
theorem main_of_discovered {store : Store} {discovered : List Template}
    (h : Discovered g.project store discovered) (ht : t ∈ discovered) {spec : Spec}
    (hkind : t.kind = .directives spec) : spec.main = true ↔ t.priority = .main := by
  obtain ⟨files, _, _, hreads⟩ := h
  obtain ⟨file, _, text, _, _, hclassify⟩ := exists_mem_of_forall₂ hreads ht
  exact main_of_classify hclassify hkind

/-- A run expands the templates that it found one after the other. They are in the order of their
ranks, main templates last, and those of one priority in the order of their paths. A list of docs in
a main template shows the docs of all templates before it, in this order. So if it is the only main
template, each doc of another one is listed once. -/
theorem docs_listed (g : Generator) (store : Store) (hsorted : store.Sorted)
    (hlists : g.registry.Lists) {found : Manifest × List Template} {s : Session}
    (h : approach g (start store) = (.ok found, s)) :
    (∃ discovered, Discovered g.project store discovered ∧ Ordered discovered found.2) ∧
    ∀ earlier t later, found.2 = earlier ++ t :: later →
      ∀ spec, t.kind = .directives spec → t.priority = .main →
      ∀ done u, earlier.foldlM (expand g g.renderer g.overrides) ⟨.empty g.project.root, []⟩ s
        = (.ok done, u) →
      (∀ d ∈ templateDispatches g done t u, d.snippet.name = "docs-list" →
        Shows ((earlier.flatMap Template.docs).map (·.entry (g.project.docsBase.getD ""))) d) ∧
      ((∀ other ∈ earlier ++ later, other.priority ≠ .main) → later = [] ∧
        ∀ other ∈ earlier ++ later, ∀ doc ∈ other.docs,
          ∃! i : Nat, (earlier.flatMap Template.docs)[i]? = some doc) := by
  obtain ⟨discovered, hdiscovered, hfound⟩ := exists_of_approachBy hsorted h
  have hordered : Ordered discovered found.2 := hfound ▸ ordered_inOrder discovered
  refine ⟨⟨discovered, hdiscovered, hordered⟩, ?_⟩
  intro earlier t later htemplates spec hkind hpriority done u hexpanded
  have ht : t ∈ discovered := by
    refine hordered.perm.subset ?_
    rw [htemplates]
    exact List.mem_append_right _ List.mem_cons_self
  have hmain : spec.main = true := (main_of_discovered hdiscovered ht hkind).2 hpriority
  have hdeclares := declares_templates hexpanded
  have hdeclared : done.declared = earlier.flatMap Template.docs := hdeclares.declared
  have htargets : ((earlier.flatMap Template.docs).map (·.target)).Nodup :=
    hdeclared ▸ hdeclares.targets List.nodup_nil
  refine ⟨fun d hd hname => ?_, fun honly => ?_⟩
  · rw [← hdeclared]
    exact shows_of_mem_templateDispatches hlists hkind hmain hd hname
  · have hlast : later = [] := by
      -- a template behind a main one is main itself
      rcases later with _ | ⟨other, later⟩
      · rfl
      · have hdescending := hordered.descending
        rw [htemplates] at hdescending
        have hother := (List.pairwise_cons.1 (List.pairwise_append.1 hdescending).2.1).1 other
          List.mem_cons_self
        cases hp : other.priority with
        | main => exact absurd hp (honly other (by simp))
        | ranked rank =>
          obtain ⟨a, ha, _⟩ := hother rank hp
          rw [hpriority] at ha
          cases ha
    subst hlast
    refine ⟨rfl, fun other hmem doc hdoc => ?_⟩
    rw [List.append_nil] at hmem
    obtain ⟨i, hi⟩ := List.mem_iff_getElem?.1 (List.mem_flatMap.2 ⟨other, hmem, hdoc⟩)
    obtain ⟨hlt, _⟩ := List.getElem?_eq_some_iff.1 hi
    exact ⟨i, hi, fun j hj => ((List.getElem?_inj hlt htargets.of_map).1 (hi.trans hj.symm)).symm⟩

/-- A project as before with docs in `d`. -/
def withDocs : Generator :=
  { atShort with project := { atShort.project with
      config := { atShort.project.config with docsDir := some "d" } } }

/-- Two docs, of which the later one has the higher rank, and a main template in front of them. -/
def rankedDocs : Memory :=
  ((Memory.empty.put ⟨"/w/s/a.md"⟩
    (.text "---\ndocs:\n  target: a.md\n  description: A\n---\nA")).put ⟨"/w/s/b.md"⟩ (.text
      "---\nmetadata:\n  priority: 9\ndocs:\n  target: b.md\n  description: B\n---\nB")).put
    ⟨"/w/s/0.md"⟩
    (.text "---\nmain: true\noutput:\n  target: m.md\n---\n\x7b\x7bdocs-list\x7d\x7d")

/-- The main template is expanded last, and lists the doc of the higher rank first. -/
theorem ranked_docs_listed :
    ∃ found s earlier t spec done u,
      approach withDocs (start (.memory rankedDocs)) = (.ok found, s) ∧
      found.2 = earlier ++ [t] ∧ t.kind = .directives spec ∧ t.priority = .main ∧
      earlier.foldlM (expand withDocs withDocs.renderer withDocs.overrides)
        ⟨.empty withDocs.project.root, []⟩ s = (.ok done, u) ∧
      ∃ d ∈ templateDispatches withDocs done t u, d.snippet.name = "docs-list" ∧
        d.result = .ok (some "1. [b.md](d/b.md) - B\n2. [a.md](d/a.md) - A".toList) ∧
        Shows ((earlier.flatMap Template.docs).map (·.entry "d")) d := by
  have hshown : (Within.ifAnswered (approachBy (List.insertionSort NotAfter) withDocs
      (start (.memory rankedDocs))) fun found s =>
    Within.ifAnswered (found.2.dropLast.foldlM (expand withDocs withDocs.renderer
      withDocs.overrides) ⟨.empty withDocs.project.root, []⟩ s) fun done u =>
    found.2.getLast?.toList.flatMap fun t =>
      match t.kind with
      | .directives _ => (templateDispatches withDocs done t u).map fun d =>
          (t.priority, d.snippet.name, d.result.toOption)
      | .headers _ => []) = [(.main, "docs-list",
        some (some "1. [b.md](d/b.md) - B\n2. [a.md](d/a.md) - A".toList))] := by
    decide +kernel
  rw [← approach_eq] at hshown
  obtain ⟨found, s, happroach, hmem⟩ :=
    Within.exists_of_mem_ifAnswered (hshown ▸ List.mem_singleton_self _)
  obtain ⟨done, u, hearlier, hmem⟩ := Within.exists_of_mem_ifAnswered hmem
  obtain ⟨t, ht, hmem⟩ := List.mem_flatMap.1 hmem
  have hfound : found.2 = found.2.dropLast ++ [t] :=
    (List.dropLast_append_getLast? t (Option.mem_toList.1 ht)).symm
  cases hkind : t.kind with
  | headers headers =>
    rw [hkind] at hmem
    cases hmem
  | directives spec =>
    rw [hkind] at hmem
    obtain ⟨d, hd, heq⟩ := List.mem_map.1 hmem
    obtain ⟨hpriority, heq⟩ := Prod.mk.inj heq
    obtain ⟨hname, hresult⟩ := Prod.mk.inj heq
    have hsorted : (Store.memory rankedDocs).Sorted :=
      Memory.sorted_put (Memory.sorted_put (Memory.sorted_put Memory.sorted_empty _ _) _ _) _ _
    obtain ⟨_, hlisted⟩ := docs_listed withDocs _ hsorted (Registry.lists_builtin _) happroach
    obtain ⟨hshows, _⟩ := hlisted _ t [] hfound spec hkind hpriority done u hearlier
    exact ⟨found, s, _, t, spec, done, u, happroach, hfound, hkind, hpriority, hearlier, d, hd,
      hname, Except.of_toOption hresult, hshows d hd hname⟩

end Generator
end AgentDocs
