import AgentDocs.Proofs.Generate.Outcome
import AgentDocs.Proofs.Generate.Targets
import AgentDocs.Proofs.Render.Imports

/-! # Links to imported files lead to files of the run

A link to an imported file is written before there is a file at its end. When a run succeeds there
is one: the target of a file that was imported is either known of a template, which is expanded, or
was given in the rendering, and then the imported file is added with it. -/
namespace AgentDocs
open Effect Store Session Template

/-! ## Targets that are known at the beginning -/

namespace Session

/-- What is known at the beginning is known of one of the paths that are the same. -/
theorem exists_of_get?_withTargets {s : Session} {known : List (Path × Path)} {p k : Path}
    (h : PathMap.get? p (s.withTargets known).targets = some k) :
    ∃ e ∈ known, e.1.normal.parts = p.parts ∧ k = e.2.normal := by
  obtain ⟨q, hq, hmem⟩ := PathMap.exists_mem_of_get? h
  obtain ⟨q', hq', hmem⟩ := PathMap.exists_of_mem_ofList hmem
  obtain ⟨⟨path, target⟩, he, heq⟩ := List.mem_map.1 hmem
  cases heq
  obtain ⟨path', hpath, hknown⟩ := PathMap.exists_of_mem_ofList he
  exact ⟨(path', target), hknown, by rw [Path.normal_congr hpath, hq', hq], rfl⟩

theorem exists_get?_withTargets {known : List (Path × Path)} {e : Path × Path} (h : e ∈ known)
    (s : Session) : ∃ k, PathMap.get? e.1.normal (s.withTargets known).targets = some k := by
  obtain ⟨k, hk⟩ := PathMap.has_iff.1 (PathMap.has_ofList (p := e.1) (v := e.2) h)
  obtain ⟨q, hq, hmem⟩ := PathMap.exists_mem_of_get? hk
  rw [← Path.normal_congr hq]
  exact PathMap.has_iff.1 (PathMap.has_ofList (v := k.normal)
    (List.mem_map.2 ⟨(q, k), hmem, rfl⟩))

end Session

/-- The place to which the link of an `@import` leads, read from the directory for which it was
written. -/
def Dispatch.linked? (d : Dispatch) : Option Path :=
  match d.result with
  | .ok (some ('@' :: link)) =>
    if d.snippet.name = "@import" then some (d.scope.targetDir.join ⟨String.ofList link⟩).normal
    else none
  | _ => none

namespace Generator
variable {g : Generator}

/-! ## The dispatches of a run -/

def templateDispatches (g : Generator) (done : Progress) (t : Template) (s : Session) :
    List Dispatch :=
  Within.ifAnswered (plan g done t s) fun p s => g.renderer.callDispatches (p.call t) s

/-- The dispatches of templates that are expanded one after the other. -/
def expandDispatches (g : Generator) : Progress → List Template → Session → List Dispatch
  | _, [], _ => []
  | done, t :: rest, s =>
    templateDispatches g done t s ++
      Within.ifAnswered (expand g g.renderer g.overrides done t s) fun done s =>
        expandDispatches g done rest s

/-- All snippets that a run dispatches. -/
def dispatches (g : Generator) (store : Store) : List Dispatch :=
  Within.ifAnswered (approach g (start store)) fun found s =>
    expandDispatches g ⟨.empty g.project.root, []⟩ found.2 s

/-- The templates of a run. -/
def found (g : Generator) (store : Store) : List Template :=
  Within.ifAnswered (approach g (start store)) fun found _ => found.2

/-- Where the results of templates will be, as far as that is known before anything is rendered. -/
def knownTargets (g : Generator) (store : Store) : PathMap Path :=
  (approach g (start store)).2.targets

/-- Where the results of all files are that are imported or known, when all is rendered. -/
def allTargets (g : Generator) (store : Store) : PathMap Path :=
  (gather g (start store)).2.targets

/-! ## What the stages do to targets -/

theorem rooted_importsDir (hroot : g.project.root.isAbsolute = true) :
    g.renderer.importsDir.Rooted := by
  have hdir : g.renderer.importsDir
      = g.project.root.normal.within g.project.config.importsDir := by
    unfold renderer Renderer.withImportsDir Renderer.make
    dsimp only
  rw [hdir, Path.within]
  exact Path.rooted_normal (Path.isAbsolute_join (Path.isAbsolute_normal hroot))

theorem sameLedger_plan (done : Progress) (t : Template) : Moves SameLedger (plan g done t) := by
  refine (Renderer.sameLedger_onStore _).bind fun parameters => ?_
  split
  · exact (moves_mk _).bind fun _ => moves_pure _
  · exact (Renderer.sameLedger_onStore _).bind fun _ => (moves_mk _).bind fun _ => moves_pure _

theorem settles_declare {r : Renderer} (origin : String) (docs : DocsIndex) (kind : OutputKind) :
    Moves (Settles r) (declare origin docs kind) := by
  have hmodify : ∀ f : Template.References → Template.References,
      Moves (Settles r) (modify fun s => { s with references := f s.references } :
        Generating PUnit) := fun f s => settles_of_eq rfl rfl
  cases kind with
  | skill name => exact Moves.bind (hmodify _) fun _ => moves_pure _
  | doc doc => exact (moves_mk _).bind fun _ => Moves.bind (hmodify _) fun _ => moves_pure _
  | command | plain => exact moves_pure _

theorem settles_finish {r : Renderer} {done : Progress} {t : Template} {s u : Session} {p : Plan}
    (h : plan g done t s = (.ok p, u)) (body : String) : Moves (Settles r) (p.finish body) := by
  obtain ⟨spec, _, hfinish, _⟩ | ⟨headers, targets, commands, _, _, _, _, _, hfinish, _⟩ :=
    (plan_cases h).2 <;> rw [hfinish]
  · refine Moves.bind (fun s => (Renderer.sameLedger_onStore _ s).settles) fun content => ?_
    refine (moves_mk _).bind fun outputs => moves_foldlM (fun done output => ?_) _ _
    exact (settles_declare _ _ _).bind fun _ => (moves_mk _).bind fun _ => moves_pure _
  · exact Moves.bind (moves_foldlM (fun _ _ => moves_mk _) _ _) fun _ => moves_pure _

theorem settles_renderPlan (horderly : ∀ c ∈ g.registry, c.Orderly) (t : Template) (p : Plan) :
    Arrives (Settles g.renderer) (renderPlan g t p) := by
  intro s body u h
  have hcall : g.renderer.call (p.call t) s = (.ok body, u) :=
    Prod.ext (Except.of_mapError_ok (congrArg (·.1) h)) (congrArg (·.2) h)
  exact Renderer.settles_call horderly _ s body u hcall

/-- Every dispatch of a template stands between the beginning and the end of its expansion. -/
theorem between_templateDispatches (hroot : g.project.root.isAbsolute = true)
    (horderly : ∀ c ∈ g.registry, c.Orderly) {done after : Progress} {t : Template} {s u : Session}
    (h : expand g g.renderer g.overrides done t s = (.ok after, u)) :
    Settles g.renderer s u ∧ ∀ d ∈ templateDispatches g done t s,
      d.Between g.renderer (Grows g.renderer) (fun job => job.targetDir.isAbsolute = true) s u := by
  have hledger := ledger_grows (r := g.renderer)
  rw [expand_eq] at h
  obtain ⟨p, s₁, hplan, h⟩ := exists_of_bind_ok h
  obtain ⟨body, s₂, hbody, h⟩ := exists_of_bind_ok h
  have hbegin : Settles g.renderer s s₁ := by
    have hsame := sameLedger_plan (g := g) done t s
    rw [hplan] at hsame
    exact hsame.settles
  have hmiddle := settles_renderPlan horderly t p s₁ body s₂ hbody
  have hend : Settles g.renderer s₂ u := (settles_finish hplan body).arrives s₂ after u h
  refine ⟨hbegin.trans (hmiddle.trans hend), fun d hd => ?_⟩
  unfold templateDispatches at hd
  rw [hplan] at hd
  have hs₂ : (g.renderer.call (p.call t) s₁).2 = s₂ := congrArg (·.2) hbody
  have hbetween := Renderer.between_callDispatches (c := p.call t) hledger
    (Renderer.fits_of_orderly (rooted_importsDir hroot).isAbsolute horderly)
    (isAbsolute_plan hroot hplan) s₁ d hd
  rw [hs₂] at hbetween
  exact hbetween.weaken hledger hbegin.toGrows hend.toGrows

theorem between_expandDispatches (hroot : g.project.root.isAbsolute = true)
    (horderly : ∀ c ∈ g.registry, c.Orderly) {templates : List Template} {done after : Progress}
    {s u : Session}
    (h : templates.foldlM (expand g g.renderer g.overrides) done s = (.ok after, u)) :
    Settles g.renderer s u ∧ ∀ d ∈ expandDispatches g done templates s,
      d.Between g.renderer (Grows g.renderer) (fun job => job.targetDir.isAbsolute = true) s u := by
  have hledger := ledger_grows (r := g.renderer)
  induction templates generalizing done s with
  | nil =>
    obtain rfl : s = u := congrArg (·.2) h
    exact ⟨settles_of_eq rfl rfl, nofun⟩
  | cons t rest ih =>
    rw [List.foldlM_cons] at h
    obtain ⟨done', s', hexpand, hrest⟩ := exists_of_bind_ok h
    obtain ⟨hfirst, hdispatches⟩ := between_templateDispatches hroot horderly hexpand
    obtain ⟨hlater, hlast⟩ := ih hrest
    refine ⟨hfirst.trans hlater, fun d hd => ?_⟩
    unfold expandDispatches at hd
    rw [hexpand] at hd
    rcases List.mem_append.1 hd with hd | hd
    · exact (hdispatches d hd).weaken hledger (hledger.refl s) hlater.toGrows
    · exact (hlast d hd).weaken hledger hfirst.toGrows (hledger.refl u)

/-! ## The end of a run -/

/-- The imported files are added, each for its target. -/
theorem claims_of_addImported {artifacts after : Artifacts} {s u : Session}
    (h : addImported artifacts s = (.ok after, u)) :
    Artifacts.Gains artifacts after ∧ ∀ f ∈ s.imported, after.Claims f.target :=
  foldlM_adds (R := Artifacts.Gains) (P := fun (f : Imported) bs => bs.Claims f.target)
    Artifacts.Gains.refl (fun _ _ _ => .trans) (fun _ _ _ => .gains)
    (fun _ _ _ _ _ h => Artifacts.claims_of_insert (congrArg (·.1) h)) h

theorem targets_of_checkReferences {s u : Session} (h : checkReferences s = (.ok (), u)) :
    s = u := by
  obtain ⟨hcheck, _⟩ | ⟨_, m, _, _, hcheck, _⟩ := checkReferences_cases s <;> rw [hcheck] at h
  · exact congrArg (·.2) h
  · cases h

/-- A run that gathers its files went through all of its stages. -/
theorem exists_of_gather_stages {store : Store} {made : Manifest × Artifacts} {t : Session}
    (h : gather g (start store) = (.ok made, t)) :
    ∃ found s done u, approach g (start store) = (.ok found, s) ∧
      found.2.foldlM (expand g g.renderer g.overrides) ⟨.empty g.project.root, []⟩ s
        = (.ok done, u) ∧
      addImported done.artifacts u = (.ok made.2, t) := by
  rw [gather_eq] at h
  obtain ⟨found, s, hfound, h⟩ := exists_of_bind_ok h
  obtain ⟨done, u, hdone, h⟩ := exists_of_bind_ok h
  obtain ⟨_, u', hcheck, h⟩ := exists_of_bind_ok h
  obtain rfl := targets_of_checkReferences hcheck
  obtain ⟨artifacts, t', hadd, h⟩ := exists_of_bind_ok h
  cases h
  exact ⟨found, s, done, u, hfound, hdone, hadd⟩

theorem sameLedger_addImported (artifacts : Artifacts) :
    Moves SameLedger (addImported artifacts) :=
  moves_get.bind fun _ => moves_foldlM (fun _ _ => moves_mk _) _ _

theorem start_of_onStore {ε α : Type} {task : Store.Task ε α} {store : Store}
    {result : Except ε α} {s : Session} (h : Within.onStore task (start store) = (result, s)) :
    s = start s.store := by
  cases h
  rfl

/-- When the templates are found, nothing but the targets that are known of them has been noted. -/
theorem approachBy_ok {order : List Template → List Template} {store : Store}
    {found : Manifest × List Template} {s : Session}
    (h : approachBy order g (start store) = (.ok found, s)) :
    ∃ store', s = (start store').withTargets (found.2.filterMap (knownTarget? g.project)) := by
  obtain ⟨dir, s₁, hdir, h⟩ := exists_of_bind_ok h
  rw [start_of_onStore hdir] at h
  cases dir with
  | false =>
    obtain ⟨_, _, hthrow, _⟩ := exists_of_bind_ok h
    cases hthrow
  | true =>
    obtain ⟨previous, s₂, hprevious, h⟩ := exists_of_bind_ok h
    rw [start_of_onStore hprevious] at h
    obtain ⟨templates, s₃, htemplates, h⟩ := exists_of_bind_ok h
    rw [start_of_onStore htemplates] at h
    obtain ⟨_, s₄, hmodify, h⟩ := exists_of_bind_ok h
    cases h
    exact ⟨s₃.store, (congrArg (·.2) hmodify).symm⟩

/-- What is known at the beginning is known of a template. -/
theorem exists_of_approach (hroot : g.project.root.isAbsolute = true) {store : Store}
    {found : Manifest × List Template} {s : Session}
    (h : approach g (start store) = (.ok found, s)) {p k : Path}
    (hk : PathMap.get? p s.targets = some k) :
    ∃ t ∈ found.2, ∃ known, knownTarget? g.project t = some known ∧
      known.1.normal.parts = p.parts ∧ k = known.2 := by
  obtain ⟨store', rfl⟩ := approachBy_ok h
  obtain ⟨known, hmem, hp, rfl⟩ := exists_of_get?_withTargets hk
  obtain ⟨t, ht, hknown⟩ := List.mem_filterMap.1 hmem
  exact ⟨t, ht, known, hknown, hp, (rooted_knownTarget? hroot hknown).2.2⟩

/-- Templates that are expanded bring files for all targets that were known of them. -/
theorem adds_templates (hroot : g.project.root.isAbsolute = true) {templates : List Template}
    {done after : Progress} {s u : Session}
    (h : templates.foldlM (expand g g.renderer g.overrides) done s = (.ok after, u)) :
    Artifacts.Gains done.artifacts after.artifacts ∧ ∀ t ∈ templates, ∀ known,
      knownTarget? g.project t = some known → after.artifacts.root = g.project.root.normal →
      after.artifacts.Holds known.2 :=
  foldlM_adds (R := fun a b : Progress => Artifacts.Gains a.artifacts b.artifacts)
    (P := fun (t : Template) (b : Progress) => ∀ known, knownTarget? g.project t = some known →
      b.artifacts.root = g.project.root.normal → b.artifacts.Holds known.2)
    (fun _ => .refl _) (fun _ _ _ => .trans)
    (fun _ _ _ hP hR known hknown hb => hR.holds _ (hP known hknown (hR.root ▸ hb)))
    (fun _ _ _ _ _ => adds_expand hroot) h

/-- Every dispatch of a run that gathers its files stands between what is known at the beginning and
what is placed at the end. -/
theorem between_dispatches (hroot : g.project.root.isAbsolute = true)
    (horderly : ∀ c ∈ g.registry, c.Orderly) {store : Store} {made : Manifest × Artifacts}
    {t : Session} (h : gather g (start store) = (.ok made, t)) :
    ∃ found s, approach g (start store) = (.ok found, s) ∧ Settles g.renderer s t ∧
      ∀ d ∈ g.dispatches store, d.Between g.renderer (Grows g.renderer)
        (fun job => job.targetDir.isAbsolute = true) s t := by
  have hledger := ledger_grows (r := g.renderer)
  obtain ⟨found, s, done, u, hfound, hexpand, hadd⟩ := exists_of_gather_stages h
  obtain ⟨hsettles, hbetween⟩ := between_expandDispatches hroot horderly hexpand
  have hend : SameLedger u t := by
    have hsame := sameLedger_addImported done.artifacts u
    rwa [hadd] at hsame
  refine ⟨found, s, hfound, hsettles.trans hend.settles, fun d hd => ?_⟩
  rw [dispatches, hfound] at hd
  exact (hbetween d hd).weaken hledger (hledger.refl s) (hledger.quiet hend)

/-- All targets that are known or given have files in the end. -/
theorem holds_of_gather (hroot : g.project.root.isAbsolute = true)
    (horderly : ∀ c ∈ g.registry, c.Orderly) {store : Store} {made : Manifest × Artifacts}
    {t : Session} (h : gather g (start store) = (.ok made, t)) {p k : Path}
    (hk : PathMap.get? p t.targets = some k) : k.Rooted ∧ made.2.Holds k.normal := by
  obtain ⟨found, s, done, u, hfound, hexpand, hadd⟩ := exists_of_gather_stages h
  have htargets : u.targets = t.targets := by
    have hsame := (sameLedger_addImported done.artifacts u).targets
    rwa [hadd] at hsame
  rw [← htargets] at hk
  have hartifacts : made.2.root = g.project.root.normal := (collected_of_gather h).root_eq
  obtain ⟨hgains, himported⟩ := claims_of_addImported hadd
  obtain ⟨hsettles, _⟩ := between_expandDispatches hroot horderly hexpand
  cases hp : PathMap.get? p s.targets with
  | some known =>
    -- it was known of a template, which has been expanded
    obtain rfl := Option.some.inj ((hsettles.kept p known hp).symm.trans hk)
    obtain ⟨template, htemplate, known, hknown, _, rfl⟩ := exists_of_approach hroot hfound hp
    obtain ⟨_, hrooted, hnormal⟩ := rooted_knownTarget? hroot hknown
    rw [hnormal]
    exact ⟨hrooted, hgains.holds _ ((adds_templates hroot hexpand).2 template htemplate known
      hknown (hgains.root ▸ hartifacts))⟩
  | none =>
    -- it was given in a rendering, for a file that was imported
    obtain ⟨source, n, hcandidate⟩ := hsettles.candidate p k hp hk
    have hrooted : k.Rooted := hcandidate ▸ Imports.rooted_candidate (rooted_importsDir hroot) _ _
    obtain ⟨f, hf, rfl⟩ := hsettles.settled p k hp hk
    have hholds := himported f hf (by rw [hartifacts, Path.normal_normal])
    rw [Path.join, if_pos hrooted.isAbsolute] at hholds
    exact ⟨hrooted, hholds⟩

/-- What is known of a template is noted for its path, if nothing else is known of the path. -/
theorem get?_of_approach (hroot : g.project.root.isAbsolute = true) {store : Store}
    {found : Manifest × List Template} {s : Session}
    (h : approach g (start store) = (.ok found, s)) {t : Template} (ht : t ∈ found.2)
    {known : Path × Path} (hknown : knownTarget? g.project t = some known)
    (honly : ∀ t' ∈ found.2, ∀ known', knownTarget? g.project t' = some known' →
      known'.1.normal = known.1.normal → known'.2 = known.2) :
    PathMap.get? known.1.normal s.targets = some known.2 := by
  obtain ⟨store', hs⟩ := approachBy_ok h
  obtain ⟨k, hk⟩ := exists_get?_withTargets (List.mem_filterMap.2 ⟨t, ht, hknown⟩) (start store')
  rw [← hs] at hk
  obtain ⟨t', ht', known', hknown', hparts, rfl⟩ := exists_of_approach hroot h hk
  rw [hk, honly t' ht' known' hknown'
    (Path.eq_of_normal (Path.normal_normal _) (Path.normal_normal _) hparts)]

/-! ## Where links lead -/

/-- Where the links of a successful run lead. -/
structure Landed (g : Generator) (store : Store) (report : Report) : Prop where
  /-- What an `@import` gives is a link that leads to the target of the file, and a file of the run
  is there. -/
  written : ∀ d ∈ g.dispatches store, d.snippet.name = "@import" →
    ∀ text, d.result = .ok (some text) → ∃ reference target,
      d.snippet.arguments = [reference] ∧
      PathMap.get? (d.scope.resolve reference) (g.allTargets store) = some target ∧
      d.linked? = some target.normal ∧
      ∃ entry ∈ report.written, placeOf g.project.root entry = target.normal
  /-- A file without a known target has another one than all other files. -/
  apart : ∀ p q k l, p.parts ≠ q.parts → PathMap.get? p (g.knownTargets store) = none →
    PathMap.get? p (g.allTargets store) = some k → PathMap.get? q (g.allTargets store) = some l →
    k.normal ≠ l.normal
  /-- They differ from what is known of a template, if nothing else is known of its path. -/
  free : ∀ p k, PathMap.get? p (g.knownTargets store) = none →
    PathMap.get? p (g.allTargets store) = some k →
    ∀ t ∈ g.found store, ∀ known, knownTarget? g.project t = some known →
      (∀ t' ∈ g.found store, ∀ known', knownTarget? g.project t' = some known' →
        known'.1.normal = known.1.normal → known'.2 = known.2) →
      k.normal ≠ known.2

/-- What an `@import` gives is a link that leads to the target of the file. -/
theorem link_of_between
    (himport : g.registry.find? "@import" = some Command.importFile) {d : Dispatch} {s t : Session}
    (hd : d.Between g.renderer (Grows g.renderer) (fun job => job.targetDir.isAbsolute = true) s t)
    (hrooted : ∀ p k, PathMap.get? p t.targets = some k → k.Rooted)
    (hname : d.snippet.name = "@import") {text : List Char} (hresult : d.result = .ok (some text)) :
    ∃ reference target, d.snippet.arguments = [reference] ∧
      PathMap.get? (d.scope.resolve reference) t.targets = some target ∧
      d.linked? = some target.normal := by
  have hledger := ledger_grows (r := g.renderer)
  obtain ⟨⟨depth, hfollow⟩, ⟨job, hjob, hscope, _⟩, _, hafter⟩ := hd
  rw [hresult] at hfollow
  obtain ⟨reference, target, harguments, htarget, htext⟩ :=
    Renderer.follow_dispatch_import (hledger.renderWithin depth) himport hname hfollow
  have htarget := hafter.kept _ _ htarget
  have hdir : d.scope.targetDir.isAbsolute = true := by
    rw [hscope]
    exact Path.isAbsolute_normal hjob
  have htext : text = '@' :: (d.scope.relative target).toList := by
    simpa [Scope.link] using Option.some.inj htext
  refine ⟨reference, target, harguments, htarget, ?_⟩
  have hlink := Path.normal_join_relativeTo? hdir (hrooted _ _ htarget).isAbsolute
  simp only [Dispatch.linked?, hresult, htext, hname, if_true, String.ofList_toList]
  exact congrArg some hlink

/-- Where the artifacts hold a file, the report names one. -/
theorem written_of_holds {root manifestPath : Path} {previous : Manifest} {artifacts : Artifacts}
    (hc : artifacts.Collected root) {s t : Store} {report : Report}
    (hwrite : writeFiles root manifestPath previous artifacts s = (.ok report, t)) {k : Path}
    (h : artifacts.Holds k) : ∃ entry ∈ report.written, placeOf root entry = k := by
  obtain ⟨a, ha, hplace⟩ := h
  obtain ⟨s₁, s₂, hcommit, _, _⟩ := exists_of_writeFiles hwrite
  rw [(Artifacts.commit_ok hcommit).2]
  refine ⟨a.path, List.mem_map_of_mem ha, ?_⟩
  rw [← hplace, hc.root_eq, placeOf, placeOf, Path.normal_join_normal]

/-- In a successful run all links to imported files lead to files of the run, and no two files that
were imported have one target. -/
theorem run_landed (g : Generator) (store : Store) {report : Report}
    (hroot : g.project.root.isAbsolute = true) (horderly : ∀ c ∈ g.registry, c.Orderly)
    (himport : g.registry.find? "@import" = some Command.importFile)
    (h : (g.run store).1 = .ok report) : Landed g store report := by
  obtain ⟨made, t, hgather, hwrite⟩ := exists_of_run h
  obtain ⟨found, s, hfound, hsettles, hbetween⟩ := between_dispatches hroot horderly hgather
  have hknownTargets : g.knownTargets store = s.targets := by rw [knownTargets, hfound]
  have hallTargets : g.allTargets store = t.targets := by rw [allTargets, hgather]
  have htemplates : g.found store = found.2 := by
    rw [Generator.found, hfound]
    rfl
  have hrooted : ∀ p k, PathMap.get? p t.targets = some k → k.Rooted :=
    fun p k hk => (holds_of_gather hroot horderly hgather hk).1
  constructor
  case written =>
    intro d hd hname text hresult
    obtain ⟨reference, target, harguments, htarget, hlink⟩ :=
      link_of_between himport (hbetween d hd) hrooted hname hresult
    refine ⟨reference, target, harguments, by rw [hallTargets, htarget], hlink, ?_⟩
    exact written_of_holds (collected_of_gather hgather) hwrite
      (holds_of_gather hroot horderly hgather htarget).2
  case apart =>
    intro p q k l hne hp hk hl he
    rw [hknownTargets] at hp
    rw [hallTargets] at hk hl
    refine hsettles.apart p k hp hk q l (Ne.symm hne) hl ?_
    rw [← (hrooted p k hk).parts_normal, ← (hrooted q l hl).parts_normal, he]
  case free =>
    intro p k hp hk template htemplate known hknown honly he
    rw [hknownTargets] at hp
    rw [hallTargets] at hk
    rw [htemplates] at htemplate honly
    have hnoted := get?_of_approach hroot hfound htemplate hknown honly
    refine hsettles.apart p k hp hk known.1.normal known.2 (fun hsame => ?_)
      (hsettles.kept _ _ hnoted) ?_
    · rw [PathMap.get?_congr hsame, hp] at hnoted
      cases hnoted
    · rw [← (hrooted p k hk).parts_normal, he]

/-- A project at `/w` with templates in `s` and imported files in `i`. -/
def atShort : Generator :=
  let config := { Config.standard with sourceDir := "s", importsDir := "i" }
  make { Project.standard ⟨"/w"⟩ with config } .empty

/-- Two files with one name, of which one imports the other. -/
def sharedPart : Memory :=
  ((Memory.empty.put ⟨"/w/s/g.md"⟩ (.text
    "---\ntarget: d/g\n---\n\x7b\x7b@import: _p\x7d\x7d\x7b\x7b@import: x/_p\x7d\x7d")).put
    ⟨"/w/s/_p"⟩ (.text "P")).put
    ⟨"/w/s/x/_p"⟩ (.text "Q \x7b\x7b@import: ../_p\x7d\x7d")

theorem shared_part_landed :
    (atShort.dispatches (.memory sharedPart)).filterMap Dispatch.linked?
        = [⟨"/w/i/_p"⟩, ⟨"/w/i/_p-1"⟩, ⟨"/w/i/_p-1"⟩] ∧
      Landed atShort (.memory sharedPart) ⟨["d/g", "i/_p", "i/_p-1"], []⟩ :=
  ⟨by decide +kernel, run_landed atShort _ (by decide +kernel)
    (fun _ hc => Command.orderly_of_mem_builtin hc) (by rfl) (by decide +kernel)⟩

/-! ## Links that lead nowhere -/

/-- One file under two paths that are the same, and a file that is imported. -/
def twiceStored : Memory :=
  ((Memory.empty.put ⟨"/w/s/a.md"⟩ (.text
    "---\ntarget: i/_p\n---\n\x7b\x7b@import: _p\x7d\x7d")).put
    ⟨"/w/s/x/../a.md"⟩ (.text "---\ntarget: b\n---\nB")).put ⟨"/w/s/_p"⟩ (.text "P")

/-- Of two templates with one path only one target is noted; the other is given to a file. -/
theorem known_target_given :
    (atShort.run (.memory twiceStored)).1 = .ok ⟨["b", "i/_p"], []⟩ ∧
      PathMap.get? ⟨"/w/s/_p"⟩ (atShort.knownTargets (.memory twiceStored)) = none ∧
      (atShort.dispatches (.memory twiceStored)).filterMap Dispatch.linked? = [⟨"/w/i/_p"⟩] ∧
      ∃ t ∈ atShort.found (.memory twiceStored),
        (knownTarget? atShort.project t).map (·.2) = some ⟨"/w/i/_p"⟩ := by
  rw [run, runIn, gather_eq, dispatches, found, knownTargets, approach_eq]
  decide +kernel

/-- A generator that has one more command. -/
def alsoWith (c : Command) : Generator := { atShort with registry := c :: atShort.registry }

/-- A command that goes on when the file that it imports cannot be rendered. -/
def tolerant : Command where
  name := "try"
  invoke scope args :=
    .act (.importFile scope.template (scope.resolve (args.getD 0 ""))) fun _ => .done ""

def failingPart : Memory :=
  (Memory.empty.put ⟨"/w/s/a.md"⟩ (.text
    "---\ntarget: a\n---\n\x7b\x7b@import: _p\x7d\x7d\x7b\x7btry: _p\x7d\x7d")).put
    ⟨"/w/s/_p"⟩ (.text "\x7b\x7bnothing\x7d\x7d")

/-- A file that could not be rendered keeps its target, and later links lead there. -/
theorem failed_import_linked :
    ((alsoWith tolerant).run (.memory failingPart)).1 = .ok ⟨["a"], []⟩ ∧
      ((alsoWith tolerant).dispatches (.memory failingPart)).filterMap Dispatch.linked?
        = [⟨"/w/i/_p"⟩] := by
  decide +kernel

/-- A command that renders a file for a directory that is not given from the root. -/
def aside : Command where
  name := "aside"
  invoke scope args :=
    CommandScript.render (scope.document (scope.resolve (args.getD 0 "")) ⟨"out"⟩ none)

def asidePart : Memory :=
  ((Memory.empty.put ⟨"/w/s/a.md"⟩
    (.text "---\ntarget: a\n---\n\x7b\x7baside: _q\x7d\x7d")).put
    ⟨"/w/s/_q"⟩ (.text "\x7b\x7b@import: _p\x7d\x7d")).put ⟨"/w/s/_p"⟩ (.text "P")

/-- There is no way from such a directory to a target. -/
theorem aside_import_linked :
    ((alsoWith aside).run (.memory asidePart)).1 = .ok ⟨["a", "i/_p"], []⟩ ∧
      ((alsoWith aside).dispatches (.memory asidePart)).filterMap Dispatch.linked?
        = [⟨"out/w/i/_p"⟩] := by
  decide +kernel

/-- Links may lead nowhere where a command is not orderly, and a file may be given a target that is
known of a template if another one is known of the same path. -/
theorem links_astray :
    ((atShort.run (.memory twiceStored)).1 = .ok ⟨["b", "i/_p"], []⟩ ∧
      PathMap.get? ⟨"/w/s/_p"⟩ (atShort.knownTargets (.memory twiceStored)) = none ∧
      (atShort.dispatches (.memory twiceStored)).filterMap Dispatch.linked? = [⟨"/w/i/_p"⟩] ∧
      ∃ t ∈ atShort.found (.memory twiceStored),
        (knownTarget? atShort.project t).map (·.2) = some ⟨"/w/i/_p"⟩) ∧
    (((alsoWith tolerant).run (.memory failingPart)).1 = .ok ⟨["a"], []⟩ ∧
      ((alsoWith tolerant).dispatches (.memory failingPart)).filterMap Dispatch.linked?
        = [⟨"/w/i/_p"⟩]) ∧
    ((alsoWith aside).run (.memory asidePart)).1 = .ok ⟨["a", "i/_p"], []⟩ ∧
      ((alsoWith aside).dispatches (.memory asidePart)).filterMap Dispatch.linked?
        = [⟨"out/w/i/_p"⟩] :=
  ⟨known_target_given, failed_import_linked, aside_import_linked⟩

end Generator
end AgentDocs
