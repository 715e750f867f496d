import AgentDocs.Proofs.Generate.Imports
import AgentDocs.Proofs.Generate.Insertions
import AgentDocs.Proofs.Generate.Listing

/-! # Docs are listed where they are written

The path of a doc in a list and the path of its file are put together separately, each from the
directory for docs and the target. They are one text, so a list shows where the artifacts of its
docs are, and in a successful run there is a file for each of its entries. -/
namespace AgentDocs
open Artifacts Effect Store Session Template

namespace Text

/-- No slash is left at the end. -/
theorem getLast?_trimSlashes (text : String) : (trimSlashes text).toList.getLast? ≠ some '/' := by
  intro hlast
  rw [trimSlashes, onChars, String.toList_ofList] at hlast
  exact absurd (not_of_getLast?_dropTailWhile hlast) (by decide)

end Text

namespace Template

/-- A doc is listed by the text of its path. -/
theorem Doc.path_entry (d : Doc) (base : String) : Path.mk (d.entry base).path = d.file base := by
  have hlast : ((Path.mk (Text.trimSlashes base)).text.toList.getLast? == some '/') = false := by
    simpa using Text.getLast?_trimSlashes base
  rw [Doc.file, Path.child, Path.join, Path.isAbsolute_dropSlashes, hlast, Bool.or_false]
  simp only [Doc.entry, Bool.false_eq_true, if_false]
  split
  · rename_i hempty
    rw [String.isEmpty_iff.1 hempty, String.empty_append]
  · rfl

theorem collect_some (docs : List Doc) (base : String) :
    collect docs (some base) = some (docs.map (·.entry base)) := by
  unfold collect
  split
  · rename_i hempty
    rw [List.isEmpty_iff.1 hempty]
    rfl
  · rfl

end Template

/-- A directory for docs inside of the root is a place below it. -/
theorem Project.exists_docsBase {project : Project} {dir : String}
    (hdir : project.config.docsDir = some dir)
    (hinside : (project.resolve dir).isWithin project.root = true) :
    ∃ base, project.docsBase = some base := by
  rw [docsBase, hdir, Option.bind_some, Path.below?, if_pos hinside]
  exact ⟨_, rfl⟩

/-! ## Docs one after the other -/

/-- A doc that a template declares, with the text for it. -/
structure DocClaim where
  origin : String
  doc : Doc
  content : String

namespace DocClaim
variable {root : Path} {base : Option String} {as bs : Artifacts}

/-- Claims the file of a doc. -/
def make (base : Option String) (as : Artifacts) (c : DocClaim) : Except GenerateError Artifacts := do
  let output ← (c.doc.output base c.content).mapError (.ofTemplate c.origin)
  as.insert c.origin output.target output.content

/-- What is claimed if docs are put in a directory. -/
def insertion (base : String) (c : DocClaim) : Insertion := ⟨c.origin, c.doc.file base, c.content⟩

theorem insert_of_make {base : String} {c : DocClaim} (h : make (some base) as c = .ok bs) :
    as.insert (c.insertion base).origin (c.insertion base).target (c.insertion base).content
      = .ok bs := by
  obtain ⟨output, houtput, h⟩ := Except.exists_of_bind_ok h
  have houtput := Except.of_mapError_ok houtput
  unfold Doc.output at houtput
  split at houtput <;> cases houtput
  exact h

/-- Docs whose files are all claimed are among all claims that were made. -/
theorem accepted_of_foldlM {base : String} {claims : List DocClaim} {before : List Insertion}
    (h : claims.foldlM (make (some base)) (after root before) = .ok as) :
    as = after root (before ++ claims.map (insertion base)) ∧
      ∀ c ∈ claims, ∃ key, Accepted root (before ++ claims.map (insertion base))
        (c.insertion base) key := by
  induction claims generalizing before with
  | nil =>
    cases h
    simp
  | cons c claims ih =>
    rw [List.foldlM_cons] at h
    obtain ⟨bs, hfirst, hrest⟩ := Except.exists_of_bind_ok h
    have hinsert := insert_of_make hfirst
    obtain ⟨key, htakes⟩ := exists_takes hinsert
    have hbs : bs = after root (before ++ [c.insertion base]) := by
      rw [after_append]
      exact (attempt_ok hinsert).symm
    rw [hbs] at hrest
    obtain ⟨has, hothers⟩ := ih hrest
    rw [List.append_assoc] at has hothers
    refine ⟨has, fun d hd => ?_⟩
    rcases List.mem_cons.1 hd with rfl | hd
    · exact ⟨key, before, _, bs, rfl, hinsert, htakes⟩
    · exact hothers d hd

/-- Whether a doc is listed as it is declared, and where its artifact is. -/
structure ListedIn (root : Path) (base : String) (as : Artifacts) (c : DocClaim)
    (entry : ListedDoc) : Prop where
  description : entry.description = c.doc.description
  written : ∃ a ∈ as.items, relative? root.normal (c.doc.file base) = some a.path ∧
    a.origin = c.origin ∧ placeOf root entry.path = placeOf root a.path

theorem listedIn_of_accepted {base : String} {c : DocClaim} {made : List Insertion} {key : String}
    (h : Accepted root made (c.insertion base) key) :
    ListedIn root base (after root made) c (c.doc.entry base) where
  description := rfl
  written := by
    obtain ⟨a, hfound, horigin⟩ := h.exists_found
    obtain ⟨ha, rfl⟩ := mem_of_find? hfound
    refine ⟨a, ha, h.inside, horigin, ?_⟩
    have hplace := placeOf_of_relative? (Path.normal_normal root) h.inside
    rw [placeOf, Path.normal_join_normal, Path.normal_join_normal] at hplace
    rw [placeOf, placeOf, hplace, Doc.path_entry]
    rfl

end DocClaim

namespace Generator
variable {g : Generator} {t : Template} {done after : Progress} {s u : Session}

/-! ## The docs of a run -/

/-- Whether there are files for all docs that were declared so far. -/
def Filed (g : Generator) (done : Progress) : Prop :=
  ∀ doc ∈ done.declared, done.artifacts.Claims (doc.file (g.project.docsBase.getD ""))

theorem file_of_mem_outputs {spec : Spec} {base : Option String} {content : String}
    {outputs : List Output} (h : spec.outputs base content = .ok outputs) {o : Output}
    (ho : o ∈ outputs) {doc : Doc} (hdoc : o.kind = .doc doc) : o.target = doc.file (base.getD "") := by
  obtain ⟨skills, hskills, h₁⟩ := Except.exists_of_bind_ok h
  obtain ⟨commands, hcommands, h₂⟩ := Except.exists_of_bind_ok h₁
  obtain ⟨plain, hplain, h₃⟩ := Except.exists_of_bind_ok h₂
  obtain ⟨docs, hdocs, h₄⟩ := Except.exists_of_bind_ok h₃
  cases h₄
  simp only [List.mem_append] at ho
  obtain ((ho | ho) | ho) | ho := ho
  · obtain ⟨skill, _, hskill⟩ := Except.exists_of_mem_mapM hskills o ho
    cases (Skill.kind_of_output hskill).symm.trans hdoc
  · obtain ⟨prompt, _, hprompt⟩ := Except.exists_of_mem_mapM hcommands o ho
    cases (Prompt.kind_of_output hprompt).symm.trans hdoc
  · obtain ⟨target, _, htarget⟩ := Except.exists_of_mem_mapM hplain o ho
    cases (kind_of_plainOutput htarget).symm.trans hdoc
  · obtain ⟨declared, _, houtput⟩ := Except.exists_of_mem_mapM hdocs o ho
    cases (Doc.kind_of_output houtput).symm.trans hdoc
    obtain ⟨base, rfl, htarget⟩ := Option.map_eq_some_iff.1 (Doc.target_of_output houtput)
    exact htarget.symm

theorem kind_of_doc? {kind : OutputKind} {doc : Doc} (h : kind.doc? = some doc) :
    kind = .doc doc := by
  cases kind with
  | doc d => exact congrArg OutputKind.doc (Option.some.inj h)
  | skill | command | plain => cases h

theorem filed_finishDirectives {spec : Spec} {body : String}
    (h : finishDirectives g t spec done body s = (.ok after, u)) :
    Gains done.artifacts after.artifacts ∧
      ∀ doc ∈ spec.docs, after.artifacts.Claims (doc.file (g.project.docsBase.getD "")) := by
  obtain ⟨content, s₁, _, h⟩ := exists_of_bind_ok h
  obtain ⟨outputs, s₂, houtputs, h⟩ := exists_of_bind_ok h
  have houtputs : spec.outputs g.project.docsBase content = .ok outputs :=
    Except.of_mapError_ok (congrArg (·.1) houtputs)
  obtain ⟨hgains, hclaims⟩ := adds_outputs h
  refine ⟨hgains, fun doc hdoc => ?_⟩
  have hmem : doc ∈ outputs.filterMap (·.kind.doc?) := by
    rw [docs_of_outputs houtputs]
    exact Option.mem_toList.2 hdoc
  obtain ⟨o, ho, hkind⟩ := List.mem_filterMap.1 hmem
  exact file_of_mem_outputs houtputs ho (kind_of_doc? hkind) ▸ hclaims o ho

/-- A template that is expanded brings files for its docs. -/
theorem filed_expand (h : expand g g.renderer g.overrides done t s = (.ok after, u)) :
    Gains done.artifacts after.artifacts ∧ (g.Filed done → g.Filed after) := by
  have hadds : Gains done.artifacts after.artifacts ∧
      ∀ doc ∈ t.docs, after.artifacts.Claims (doc.file (g.project.docsBase.getD "")) := by
    have hexpand := h
    rw [expand_eq] at hexpand
    obtain ⟨p, s₁, hplan, hexpand⟩ := exists_of_bind_ok hexpand
    obtain ⟨body, s₂, _, hexpand⟩ := exists_of_bind_ok hexpand
    obtain ⟨spec, hkind, hfinish, _⟩ | ⟨headers, targets, commands, _, _, hkind, _, _, hfinish, _⟩ :=
      (plan_cases hplan).2 <;> rw [hfinish] at hexpand <;> rw [Template.docs, hkind]
    · obtain ⟨hgains, hclaims⟩ := filed_finishDirectives hexpand
      exact ⟨hgains, fun doc hdoc => hclaims doc (Option.mem_toList.1 hdoc)⟩
    · exact ⟨(adds_finishHeaders hexpand).1, List.forall_mem_nil _⟩
  obtain ⟨hgains, hclaims⟩ := hadds
  refine ⟨hgains, fun hfiled doc hdoc => ?_⟩
  rw [(declares_expand h).declared] at hdoc
  rcases List.mem_append.1 hdoc with hdoc | hdoc
  · exact (hfiled doc hdoc).gains hgains
  · exact hclaims doc hdoc

/-- What is listed for a template are the docs that were declared before. -/
theorem docs_of_plan {p : Plan} (h : plan g done t s = (.ok p, u)) {docs : List ListedDoc}
    (hdocs : p.template.docs = some docs) :
    docs = done.declared.map (·.entry (g.project.docsBase.getD "")) := by
  obtain ⟨parameters, s₁, _, h⟩ := exists_of_bind_ok h
  cases hkind : t.kind with
  | headers headers =>
    rw [hkind] at h
    obtain ⟨targets, s₂, _, h⟩ := exists_of_bind_ok h
    obtain ⟨commands, s₃, _, h⟩ := exists_of_bind_ok h
    cases h
    cases hdocs
  | directives spec =>
    rw [hkind] at h
    obtain ⟨listed, s₂, hlisted, h⟩ := exists_of_bind_ok h
    cases h
    have hlisted : listedDocs g.project spec t.source.relative done.docs = .ok listed :=
      congrArg (·.1) hlisted
    obtain rfl : listed = some docs := hdocs
    unfold listedDocs at hlisted
    split at hlisted
    · split at hlisted <;> cases hlisted
      exact collect_eq ‹_›
    · cases hlisted

/-- Whether a list of docs names places for which there are artifacts. -/
def ListsFiled (as : Artifacts) (text : List Char) : Prop :=
  ∃ docs : List ListedDoc, text = (Text.joined "\n" (Renderer.docLines docs)).toList ∧
    ∀ entry ∈ docs, as.Claims ⟨entry.path⟩

theorem ListsFiled.gains {as bs : Artifacts} {text : List Char} (h : ListsFiled as text)
    (hgains : Gains as bs) : ListsFiled bs text := by
  obtain ⟨docs, htext, hdocs⟩ := h
  exact ⟨docs, htext, fun entry hentry => (hdocs entry hentry).gains hgains⟩

theorem listsFiled_of_mem_templateDispatches (hlists : g.registry.Lists) (hfiled : g.Filed done)
    {d : Dispatch} (hd : d ∈ templateDispatches g done t s) (hname : d.snippet.name = "docs-list")
    {text : List Char} (hresult : d.result = .ok (some text)) :
    ListsFiled done.artifacts text := by
  obtain ⟨p, u, hplan, hd⟩ := Within.exists_of_mem_ifAnswered hd
  obtain ⟨htemplate, depth, hfollow⟩ :=
    Renderer.followed_of_mem_callDispatches (r := g.renderer) hlists.own hd
  rw [hresult] at hfollow
  obtain ⟨docs, hdocs, htext⟩ :=
    Renderer.exists_of_dispatch_docsList (hname ▸ hlists.docs) hfollow
  rw [htemplate] at hdocs
  refine ⟨docs, htext, fun entry hentry => ?_⟩
  rw [docs_of_plan hplan hdocs] at hentry
  obtain ⟨doc, hdoc, rfl⟩ := List.mem_map.1 hentry
  rw [Doc.path_entry]
  exact hfiled doc hdoc

/-- Along all templates: the docs that were declared keep their files, and every list names them. -/
theorem listsFiled_expandDispatches (hlists : g.registry.Lists) {templates : List Template}
    (hfiled : g.Filed done)
    (h : templates.foldlM (expand g g.renderer g.overrides) done s = (.ok after, u)) :
    Gains done.artifacts after.artifacts ∧ ∀ d ∈ expandDispatches g done templates s,
      d.snippet.name = "docs-list" → ∀ text, d.result = .ok (some text) →
        ListsFiled after.artifacts text := by
  induction templates generalizing done s with
  | nil =>
    cases h
    exact ⟨.refl _, List.forall_mem_nil _⟩
  | cons t rest ih =>
    rw [List.foldlM_cons] at h
    obtain ⟨done', s', hexpand, hrest⟩ := exists_of_bind_ok h
    obtain ⟨hfirst, hkept⟩ := filed_expand hexpand
    obtain ⟨hlater, hlast⟩ := ih (hkept hfiled) hrest
    refine ⟨hfirst.trans hlater, fun d hd hname text hresult => ?_⟩
    unfold expandDispatches at hd
    rw [hexpand] at hd
    rcases List.mem_append.1 hd with hd | hd
    · exact (listsFiled_of_mem_templateDispatches hlists hfiled hd hname hresult).gains
        (hfirst.trans hlater)
    · exact hlast d hd hname text hresult

/-- Where all docs are put in a directory inside of the root and their files are claimed, they are
listed in order, each under a path that leads to its artifact. And in a successful run all lists of
docs name only files of the run. -/
theorem docs_listed_where_written :
    (∀ (project : Project) (dir : String) (before : List Insertion) (claims : List DocClaim)
      (as : Artifacts), project.config.docsDir = some dir →
      (project.resolve dir).isWithin project.root = true →
      claims.foldlM (DocClaim.make project.docsBase) (Artifacts.after project.root before) = .ok as →
      ∃ base listed, project.docsBase = some base ∧
        collect (claims.map (·.doc)) project.docsBase = some listed ∧
        List.Forall₂ (DocClaim.ListedIn project.root base as) claims listed) ∧
    ∀ (g : Generator) (store : Store) (report : Report), g.registry.Lists →
      (g.run store).1 = .ok report →
      ∀ d ∈ g.dispatches store, d.snippet.name = "docs-list" →
        ∀ text, d.result = .ok (some text) → ∃ docs : List ListedDoc,
          text = (Text.joined "\n" (Renderer.docLines docs)).toList ∧
          ∀ entry ∈ docs, ∃ file ∈ report.written,
            placeOf g.project.root entry.path = placeOf g.project.root file := by
  refine ⟨fun project dir before claims as hdir hinside h => ?_, ?_⟩
  · obtain ⟨base, hbase⟩ := Project.exists_docsBase hdir hinside
    rw [hbase] at h ⊢
    obtain ⟨rfl, haccepted⟩ := DocClaim.accepted_of_foldlM h
    refine ⟨base, _, rfl, collect_some _ base, ?_⟩
    rw [List.map_map, List.forall₂_map_right_iff, List.forall₂_same]
    intro c hc
    obtain ⟨key, hkey⟩ := haccepted c hc
    exact DocClaim.listedIn_of_accepted hkey
  · intro g store report hlists h d hd hname text hresult
    obtain ⟨made, t, hgather, hwrite⟩ := exists_of_run h
    obtain ⟨found, s, done, u, hfound, hexpand, hadd⟩ := exists_of_gather_stages hgather
    rw [dispatches, hfound] at hd
    have hnone : g.Filed ⟨.empty g.project.root, []⟩ := List.forall_mem_nil _
    have hlisted := (listsFiled_expandDispatches hlists hnone hexpand).2 d hd hname text hresult
    obtain ⟨docs, htext, hdocs⟩ := hlisted.gains (claims_of_addImported hadd).1
    refine ⟨docs, htext, fun entry hentry => ?_⟩
    have hroot := (collected_of_gather hgather).root_eq
    have hholds := hdocs entry hentry (by rw [hroot, Path.normal_normal])
    obtain ⟨file, hfile, hplace⟩ := written_of_holds (collected_of_gather hgather) hwrite hholds
    refine ⟨file, hfile, ?_⟩
    rw [hplace, hroot, Path.normal_join_normal]
    rfl

/-- Two docs, of which one is put beside the directory for docs. -/
def spelledDocs : List DocClaim :=
  [⟨"t.md", ⟨"//x/./y.md", "Y"⟩, "Y"⟩, ⟨"u.md", ⟨"../e.md", "E"⟩, "E"⟩]

/-- However targets are spelled, entries lead to the artifacts. The list of a run leads to its
files. -/
theorem spelled_docs_listed :
    (withDocs.project.config.docsDir = some "d" ∧
      (withDocs.project.resolve "d").isWithin withDocs.project.root = true ∧
      ∃ as listed, spelledDocs.foldlM (DocClaim.make withDocs.project.docsBase)
          (Artifacts.after withDocs.project.root []) = .ok as ∧
        as.items.map (·.path) = ["d/x/y.md", "e.md"] ∧
        listed.map (·.path) = ["d/x/./y.md", "d/../e.md"] ∧
        ∃ base, List.Forall₂ (DocClaim.ListedIn withDocs.project.root base as) spelledDocs listed) ∧
    withDocs.registry.Lists ∧
      (withDocs.run (.memory rankedDocs)).1 = .ok ⟨["d/a.md", "d/b.md", "m.md"], []⟩ ∧
      ∃ d ∈ withDocs.dispatches (.memory rankedDocs), d.snippet.name = "docs-list" ∧
        ∃ docs : List ListedDoc,
          d.result = .ok (some (Text.joined "\n" (Renderer.docLines docs)).toList) ∧
          ∀ entry ∈ docs, ∃ file ∈ ["d/a.md", "d/b.md", "m.md"],
            placeOf ⟨"/w"⟩ entry.path = placeOf ⟨"/w"⟩ file := by
  have hdir : withDocs.project.config.docsDir = some "d" := rfl
  have hinside : (withDocs.project.resolve "d").isWithin withDocs.project.root = true := by decide
  have hlists : withDocs.registry.Lists := Registry.lists_builtin _
  refine ⟨⟨hdir, hinside, ?_⟩, hlists, ?_⟩
  · have hclaimed : (spelledDocs.foldlM (DocClaim.make withDocs.project.docsBase)
        (Artifacts.after withDocs.project.root [])).toOption.map (fun as => as.items.map (·.path))
          = some ["d/x/y.md", "e.md"] := by
      decide +kernel
    have hcollect : (collect (spelledDocs.map (·.doc)) withDocs.project.docsBase).map
        (·.map (·.path)) = some ["d/x/./y.md", "d/../e.md"] := by
      decide +kernel
    obtain ⟨as, has, hpaths⟩ := Option.map_eq_some_iff.1 hclaimed
    have has := Except.of_toOption has
    obtain ⟨base, listed, _, hlisted, hall⟩ :=
      docs_listed_where_written.1 withDocs.project "d" [] spelledDocs as hdir hinside has
    rw [hlisted] at hcollect
    exact ⟨as, listed, has, hpaths, Option.some.inj hcollect, base, hall⟩
  · have hall : (withDocs.run (.memory rankedDocs)).1 = .ok ⟨["d/a.md", "d/b.md", "m.md"], []⟩ ∧
        (withDocs.dispatches (.memory rankedDocs)).map (fun d => (d.snippet.name, d.result.toOption))
          = [("docs-list", some (some "1. [b.md](d/b.md) - B\n2. [a.md](d/a.md) - A".toList))] := by
      rw [run, runIn, gather_eq, dispatches, approach_eq]
      decide +kernel
    obtain ⟨hrun, hshown⟩ := hall
    obtain ⟨d, hd, heq⟩ := List.map_eq_singleton_iff.1 hshown
    obtain ⟨hname, hresult⟩ := Prod.mk.inj heq
    have hmem : d ∈ withDocs.dispatches (.memory rankedDocs) := hd ▸ List.mem_singleton_self d
    obtain ⟨docs, htext, hfiles⟩ := docs_listed_where_written.2 withDocs _ _ hlists hrun d hmem
      hname _ (Except.of_toOption hresult)
    exact ⟨hrun, d, hmem, hname, docs, htext ▸ Except.of_toOption hresult, hfiles⟩

end Generator
end AgentDocs
