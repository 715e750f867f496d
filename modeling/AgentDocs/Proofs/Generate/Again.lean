import AgentDocs.Proofs.Generate.Imports
import AgentDocs.Proofs.Generate.Order
import AgentDocs.Proofs.Generate.Rewriting
import AgentDocs.Proofs.Generate.Twins

/-! # A run that follows a run

A run changes the store on which the next one begins. If it writes and removes nothing in the source
directory, if templates look for files there only, and if their `*` still stand for the same
directories, then nothing of what it changed counts for the next run: the same files are made, and
writing them changes nothing. -/
namespace AgentDocs
open Effect Store Session Template

namespace Generator
variable {g : Generator}

/-! ## What a run looks at -/

/-- All that happens while the text of a template is rendered. -/
def templateTrace (g : Generator) (done : Progress) (t : Template) (s : Session) : Trace :=
  Within.ifAnswered (plan g done t s) fun p s => g.renderer.callTrace (p.call t) s

/-- The same of templates that are expanded one after the other. -/
def expandTrace (g : Generator) : Progress → List Template → Session → Trace
  | _, [], _ => []
  | done, t :: rest, s =>
    templateTrace g done t s ++
      Within.ifAnswered (expand g g.renderer g.overrides done t s) fun done s =>
        expandTrace g done rest s

/-- All that happens while the templates of a run are rendered. -/
def trace (g : Generator) (store : Store) : Trace :=
  Within.ifAnswered (approach g (start store)) fun found s =>
    expandTrace g ⟨.empty g.project.root, []⟩ found.2 s

/-- Whether the templates of a run read files, and look for files, only in a region. -/
structure LooksInto (g : Generator) (K : Region) (store : Store) : Prop where
  moments : ∀ x ∈ g.trace store, x.event.StaysIn K
  examples : ∀ t ∈ g.found store, ∀ p ∈ t.exampleFiles g.project.root g.classes, K p.parts = true

/-- The files of the source directory, the manifest aside. -/
def sources (g : Generator) : Region := fun parts =>
  g.project.sourceDir.parts.isPrefixOf parts && parts != g.manifestPath.parts

/-- The files from which the text of the templates comes. -/
def reads (g : Generator) (store : Store) : List Path :=
  (g.trace store).filterMap (·.event.read?) ++
    (g.found store).flatMap (exampleFiles g.project.root g.classes)

/-! ## What is always in the source directory -/

theorem parts_manifestPath (g : Generator) :
    g.manifestPath.parts = g.project.sourceDir.parts ++ [.name Manifest.fileName] :=
  Path.parts_child_name _ (by simp [Part.Proper, Manifest.fileName])

/-- A file with another name than that of the manifest. -/
theorem sources_of_fileName? {p : Path} (hwithin : p.isWithin g.project.sourceDir = true)
    (hname : p.fileName? ≠ some Manifest.fileName) : g.sources p.parts = true := by
  rw [sources, Bool.and_eq_true]
  refine ⟨hwithin, bne_iff_ne.2 fun he => hname ?_⟩
  rw [Path.fileName?, he, parts_manifestPath, List.getLast?_concat]

theorem sources_child {d : Path} {name : String} (hproper : (Part.name name).Proper)
    (hname : name ≠ Manifest.fileName) (hd : d.isWithin g.project.sourceDir = true) :
    g.sources (d.child name).parts = true := by
  have hparts := Path.parts_child_name d hproper
  refine sources_of_fileName? ?_ fun he => hname ?_
  · rw [Path.isWithin, hparts, List.isPrefixOf_iff_prefix]
    exact (List.isPrefixOf_iff_prefix.1 hd).trans (List.prefix_append _ _)
  · rw [Path.fileName?, hparts, List.getLast?_concat] at he
    exact Option.some.inj he

theorem sources_parameters {dir d : Path} (hd : d ∈ Parameters.chain g.project.sourceDir dir) :
    g.sources (d.child Parameters.fileName).parts = true := by
  rw [Parameters.chain, List.mem_reverse] at hd
  have hall : (dir.ancestors.takeWhile fun d => d.isWithin g.project.sourceDir).all
      (fun d => d.isWithin g.project.sourceDir) = true := List.all_takeWhile
  have hwithin := List.all_eq_true.1 hall d hd
  have hproper : (Part.name Parameters.fileName).Proper := by
    simp [Part.Proper, Parameters.fileName]
  exact sources_child hproper (by decide) hwithin

theorem sources_listed {pieces : List Piece} (hpieces : compile "*.md" = .ok pieces) (p : Path)
    (hwithin : p.isWithin g.project.sourceDir = true) (hadmitted : nameAdmitted pieces p = true) :
    g.sources p.parts = true := by
  refine sources_of_fileName? hwithin fun hname => ?_
  have hmarkdown : compile "*.md" = .ok [.anyText, .char '.', .char 'm', .char 'd'] := by
    decide +kernel
  cases hmarkdown.symm.trans hpieces
  rw [nameAdmitted, hname] at hadmitted
  revert hadmitted
  decide

/-! ## The next run -/

section Next
variable {m m' : Memory} {K : Region}

theorem mirrors_discover (hK : m'.filesIn g.sources = m.filesIn g.sources)
    (hdir : m'.isDir g.project.sourceDir = m.isDir g.project.sourceDir) :
    Mirrors (Beside (.memory m) (.memory m')) (discover g.project) (discover g.project) := by
  refine (Task.mirrors_wrapError _ (mirrors_listFiles hK hdir fun _ => sources_listed)).bind_of
    fun s t files hst hfiles => ?_
  have hfiles : (Store.listFiles g.project.sourceDir "*.md" (.memory m)).1 = .ok files :=
    (answer_congr hst.left (.files _ _)).trans (Except.of_mapError_ok hfiles)
  refine mirrors_mapM fun p hp => ?_
  obtain ⟨pieces, hpieces, hwithin, hadmitted⟩ :=
    of_mem_listFiles hfiles (List.mem_of_mem_filter hp)
  unfold readTemplate
  split
  · exact mirrors_throw _
  · exact (Task.mirrors_wrapError _ (mirrors_readText hK
      (sources_listed hpieces p hwithin hadmitted))).bind fun text => mirrors_mk _

theorem access_isDir {ε : Type} (wrap : Store.Error → ε) (p : Path) (m : Memory) :
    Within.access wrap (Store.isDir p) (start (.memory m))
      = (.ok (m.isDir p), start (.memory m)) := rfl

theorem isDir_of_approach {found : Manifest × List Template} {s : Session}
    (h : approach g (start (.memory m)) = (.ok found, s)) :
    m.isDir g.project.sourceDir = true := by
  rw [approach, approachBy, bind_ok (access_isDir _ _ _)] at h
  cases hdir : m.isDir g.project.sourceDir with
  | true => rfl
  | false =>
    rw [hdir] at h
    obtain ⟨_, _, hthrow, _⟩ := exists_of_bind_ok h
    cases hthrow

/-- The same templates are found, and another manifest. -/
theorem approach_again (hK : m'.filesIn g.sources = m.filesIn g.sources)
    (hdir : m'.isDir g.project.sourceDir = true) {found : Manifest × List Template} {s : Session}
    (h : approach g (start (.memory m)) = (.ok found, s)) {next : Manifest}
    (hload : (Manifest.load g.manifestPath (.memory m')).1 = .ok next) :
    ∃ u, approach g (start (.memory m')) = (.ok (next, found.2), u) ∧ Twin m m' s u := by
  have hisDir := isDir_of_approach h
  rw [approach, approachBy, bind_ok (access_isDir _ _ _), hisDir] at h
  rw [approach, approachBy, bind_ok (access_isDir _ _ _), hdir, Bool.not_true,
    if_neg Bool.false_ne_true]
  obtain ⟨previous, s₂, hprevious, h⟩ := exists_of_bind_ok h
  obtain ⟨templates, s₃, htemplates, h⟩ := exists_of_bind_ok h
  obtain ⟨_, s₄, hnoted, h⟩ := exists_of_bind_ok h
  cases hnoted
  cases h
  have hnext : Within.onStore (Manifest.load g.manifestPath) (start (.memory m'))
      = (.ok next, start (Manifest.load g.manifestPath (.memory m')).2) := Prod.ext hload rfl
  have hstores : Beside (.memory m) (.memory m') s₂.store
      (Manifest.load g.manifestPath (.memory m')).2 :=
    ⟨(Manifest.moves_load _).arrives _ _ _ (of_onStore hprevious), Manifest.moves_load _ _⟩
  have htwin : Twin m m' s₂ (start (Manifest.load g.manifestPath (.memory m')).2) := by
    rw [start_of_onStore hprevious]
    exact ⟨rfl, hstores⟩
  obtain ⟨u, hu, htwin⟩ := (Within.mirrors_onStore
    (mirrors_discover hK (hdir.trans hisDir.symm))).exists_ok htwin htemplates
  refine ⟨u.withTargets ((inOrder templates).filterMap (knownTarget? g.project)), ?_,
    htwin.update (Session.withTargets · _) fun _ _ => rfl⟩
  exact (bind_ok hnext).trans ((bind_ok hu).trans rfl)

end Next

/-! ## Templates of the next run -/

theorem moves_plan (done : Progress) (t : Template) : Moves Steady (plan g done t) := by
  refine (Within.moves_onStore (Parameters.moves_load _ _ _)).bind fun parameters => ?_
  split
  · exact (moves_orFail _).bind fun _ => moves_pure _
  · refine (Within.moves_onStore (Task.moves_wrapError (moves_headerTargets _ _))).bind fun _ => ?_
    exact (moves_orFail _).bind fun _ => moves_pure _

theorem along_of_approach {store : Store} {found : Manifest × List Template} {s : Session}
    (h : approach g (start store) = (.ok found, s)) (hstore : SameContent store s.store) :
    Renderer.Along store [] s := by
  obtain ⟨store', rfl⟩ := approachBy_ok h
  exact ⟨hstore, rfl, faithful_start _ _⟩

section Templates
variable {m m' : Memory} (hK : m'.filesIn g.sources = m.filesIn g.sources)
include hK

theorem renderPlan_again {t : Template} {p : Plan} {s u v : Session} {body : String}
    (htwin : Twin m m' s v) (hs : Renderer.Along (.memory m) [] s) (hv : Renderer.Along (.memory m') [] v)
    (h : renderPlan g t p s = (.ok body, u))
    (hin : ∀ x ∈ g.renderer.callTrace (p.call t) s, x.event.StaysIn g.sources)
    (henough : g.renderer.Enough (.memory m) (.memory m') (g.renderer.callTrace (p.call t) s)) :
    ∃ w, renderPlan g t p v = (.ok body, w) ∧ Twin m m' u w := by
  have hmatched := Renderer.matched_call hK (p.call t) htwin hs hv hin henough
  have hresult : (g.renderer.call (p.call t) s).1 = .ok body :=
    Except.of_mapError_ok (congrArg (·.1) h)
  have hsession : (g.renderer.call (p.call t) s).2 = u := congrArg (·.2) h
  refine ⟨(g.renderer.call (p.call t) v).2, Prod.ext ?_ rfl, hsession ▸ hmatched.session⟩
  exact congrArg (Except.mapError _) (hmatched.result.symm.trans hresult)

theorem expand_again {done after : Progress} {t : Template} {s u v : Session}
    (htwin : Twin m m' s v) (hs : Renderer.Along (.memory m) [] s) (hv : Renderer.Along (.memory m') [] v)
    (h : expand g g.renderer g.overrides done t s = (.ok after, u))
    (hin : ∀ x ∈ templateTrace g done t s, x.event.StaysIn g.sources)
    (henough : g.renderer.Enough (.memory m) (.memory m') (templateTrace g done t s))
    (hexamples : ∀ p ∈ t.exampleFiles g.project.root g.classes, g.sources p.parts = true)
    (hspread : t.spread g.project.root (.memory m) = t.spread g.project.root (.memory m')) :
    ∃ w, expand g g.renderer g.overrides done t v = (.ok after, w) ∧ Twin m m' u w := by
  rw [expand_eq] at h
  obtain ⟨p, s₁, hplan, h⟩ := exists_of_bind_ok h
  obtain ⟨body, s₂, hbody, hfinish⟩ := exists_of_bind_ok h
  rw [templateTrace, hplan] at hin henough
  obtain ⟨v₁, hplan', htwin₁⟩ :=
    (mirrors_plan hK done (fun _ _ => sources_parameters) hspread).exists_ok htwin hplan
  have hs₁ := hs.steady ((moves_plan done t).arrives _ _ _ hplan)
  have hv₁ := hv.steady ((moves_plan done t).arrives _ _ _ hplan')
  obtain ⟨v₂, hbody', htwin₂⟩ := renderPlan_again hK htwin₁ hs₁ hv₁ hbody hin henough
  obtain ⟨v₃, hfinish', htwin₃⟩ := (mirrors_finish hK hplan body hexamples).exists_ok htwin₂ hfinish
  refine ⟨v₃, ?_, htwin₃⟩
  rw [expand_eq, bind_ok hplan', bind_ok hbody', hfinish']

/-- Templates that are expanded one after the other, by induction on them. -/
theorem expandAll_again {templates : List Template} {done after : Progress} {s u v : Session}
    (htwin : Twin m m' s v) (hs : Renderer.Along (.memory m) [] s) (hv : Renderer.Along (.memory m') [] v)
    (h : templates.foldlM (expand g g.renderer g.overrides) done s = (.ok after, u))
    (hin : ∀ x ∈ expandTrace g done templates s, x.event.StaysIn g.sources)
    (henough : g.renderer.Enough (.memory m) (.memory m') (expandTrace g done templates s))
    (hexamples : ∀ t ∈ templates, ∀ p ∈ t.exampleFiles g.project.root g.classes,
      g.sources p.parts = true)
    (hspread : ∀ t ∈ templates,
      t.spread g.project.root (.memory m) = t.spread g.project.root (.memory m')) :
    ∃ w, templates.foldlM (expand g g.renderer g.overrides) done v = (.ok after, w) ∧
      Twin m m' u w := by
  induction templates generalizing done s v with
  | nil =>
    cases h
    exact ⟨v, rfl, htwin⟩
  | cons t rest ih =>
    rw [List.foldlM_cons] at h
    obtain ⟨done', s', hfirst, hrest⟩ := exists_of_bind_ok h
    unfold expandTrace at hin henough
    rw [hfirst] at hin henough
    obtain ⟨v', hfirst', htwin'⟩ := expand_again hK htwin hs hv hfirst
      (fun x hx => hin x (List.mem_append_left _ hx))
      (henough.mono fun x hx => List.mem_append_left _ hx) (hexamples t List.mem_cons_self)
      (hspread t List.mem_cons_self)
    have hmoves := (moves_expand g g.renderer g.overrides done t).arrives
    obtain ⟨w, hrest', htwin''⟩ := ih htwin' (hs.steady (hmoves _ _ _ hfirst))
      (hv.steady (hmoves _ _ _ hfirst')) hrest (fun x hx => hin x (List.mem_append_right _ hx))
      (henough.mono fun x hx => List.mem_append_right _ hx)
      (fun t ht => hexamples t (List.mem_cons_of_mem _ ht))
      fun t ht => hspread t (List.mem_cons_of_mem _ ht)
    exact ⟨w, by rw [List.foldlM_cons, bind_ok hfirst', hrest'], htwin''⟩

omit hK in
theorem mirrors_checkReferences : Mirrors (Twin m m') checkReferences checkReferences := by
  refine Within.mirrors_get fun s t h => ?_
  rw [h.references]
  split
  · exact mirrors_throw _
  · exact mirrors_pure _

omit hK in
theorem mirrors_addImported (artifacts : Artifacts) :
    Mirrors (Twin m m') (addImported artifacts) (addImported artifacts) := by
  refine Within.mirrors_get fun s t h => ?_
  rw [h.imported]
  exact mirrors_foldlM (fun _ _ _ => mirrors_mk _) _

/-- The same files are made. -/
theorem gather_again (hdir : m'.isDir g.project.sourceDir = true)
    (hlooks : g.LooksInto g.sources (.memory m))
    (henough : g.renderer.Enough (.memory m) (.memory m') (g.trace (.memory m)))
    (hspread : ∀ t ∈ g.found (.memory m),
      t.spread g.project.root (.memory m) = t.spread g.project.root (.memory m'))
    {made : Manifest × Artifacts} {s : Session} (h : gather g (start (.memory m)) = (.ok made, s))
    {next : Manifest} (hload : (Manifest.load g.manifestPath (.memory m')).1 = .ok next) :
    ∃ u, gather g (start (.memory m')) = (.ok (next, made.2), u) := by
  rw [gather_eq] at h
  obtain ⟨found, s₁, hfound, h⟩ := exists_of_bind_ok h
  obtain ⟨done, s₂, hdone, h⟩ := exists_of_bind_ok h
  obtain ⟨_, s₃, hcheck, h⟩ := exists_of_bind_ok h
  obtain ⟨artifacts, s₄, hadd, h⟩ := exists_of_bind_ok h
  cases h
  obtain ⟨moments, examples⟩ := hlooks
  rw [trace, hfound] at moments henough
  rw [Generator.found, hfound] at examples hspread
  obtain ⟨u₁, hfound', htwin⟩ := approach_again hK hdir hfound hload
  have hs := along_of_approach hfound htwin.stores.left
  have hu := along_of_approach hfound' htwin.stores.right
  obtain ⟨u₂, hdone', htwin⟩ :=
    expandAll_again hK htwin hs hu hdone moments henough examples hspread
  obtain ⟨u₃, hcheck', htwin⟩ := mirrors_checkReferences.exists_ok htwin hcheck
  obtain ⟨u₄, hadd', _⟩ := (mirrors_addImported _).exists_ok htwin hadd
  refine ⟨u₄, ?_⟩
  rw [gather_eq, bind_ok hfound', bind_ok hdone', bind_ok hcheck', bind_ok hadd']
  rfl

end Templates

/-! ## Running again -/

theorem isWithin_manifestPath (g : Generator) :
    g.manifestPath.isWithin g.project.sourceDir = true := by
  rw [Path.isWithin, parts_manifestPath, List.isPrefixOf_iff_prefix]
  exact List.prefix_append _ _

section Outside
variable {m : Memory} {previous : Manifest} {artifacts : Artifacts} {report : Report} {t : Store}
  (hcollected : artifacts.Collected g.project.root)
  (hwrite : writeFiles g.project.root g.manifestPath previous artifacts (.memory m)
    = (.ok report, t))
  (houtside : ∀ entry ∈ report.written ++ report.deleted,
    (placeOf g.project.root entry).isWithin g.project.sourceDir = false)
include hcollected hwrite houtside

/-- The files of the source directory stay as they were, and the directory stays. -/
theorem sources_kept :
    ∃ m', t = .memory m' ∧ m'.filesIn g.sources = m.filesIn g.sources ∧
      (m.isDir g.project.sourceDir = true → m'.isDir g.project.sourceDir = true) := by
  have hconfined := confined_of_writeFiles hcollected hwrite
  have hfile : ∀ p, Touched g.project.root g.manifestPath report p → g.sources p.parts = false := by
    intro p hp
    rcases hp with ⟨entry, hentry, hparts⟩ | hmanifest
    · have hout := houtside entry hentry
      rw [Path.isWithin, ← hparts] at hout
      rw [sources, hout, Bool.false_and]
    · rw [hmanifest, sources, bne_self_eq_false, Bool.and_false]
  have hdir : ∀ d, Emptied g.project.root report d → d.parts ≠ g.project.sourceDir.parts := by
    rintro d ⟨entry, hentry, hprefix, _⟩ hparts
    have hout := houtside entry (List.mem_append_right _ hentry)
    rw [Path.isWithin, ← hparts, List.isPrefixOf_iff_prefix.2 hprefix] at hout
    cases hout
  obtain ⟨m', rfl, hfiles⟩ := hconfined.filesIn hfile
  refine ⟨m', rfl, hfiles, fun hisDir => ?_⟩
  obtain ⟨_, heq, hisDir'⟩ := hconfined.isDir hdir hisDir
  cases heq
  exact hisDir'

theorem inPlace_of_outside
    (hown : ∀ entry ∈ report.deleted, ∀ other ∈ report.written,
      (placeOf g.project.root entry).parts ≠ (placeOf g.project.root other).parts) :
    ∃ m', t = .memory m' ∧ artifacts.InPlace g.manifestPath m' := by
  refine inPlace_of_writeFiles hcollected hwrite (fun entry hentry hparts => ?_) hown
  have hout := houtside entry (List.mem_append_left _ hentry)
  rw [Path.isWithin, hparts, ← Path.isWithin, isWithin_manifestPath] at hout
  cases hout

end Outside

theorem isDir_of_gather {m : Memory} {made : Manifest × Artifacts} {s : Session}
    (h : gather g (start (.memory m)) = (.ok made, s)) : m.isDir g.project.sourceDir = true := by
  obtain ⟨_, _, _, _, hfound, _⟩ := exists_of_gather_stages h
  exact isDir_of_approach hfound

/-- What was gathered on a memory leaves a memory with the same files and directories. -/
theorem memory_of_gather {m : Memory} {made : Manifest × Artifacts} {s : Session}
    (h : gather g (start (.memory m)) = (.ok made, s)) :
    ∃ m', s.store = .memory m' ∧ m'.files = m.files ∧ m'.dirs = m.dirs := by
  have hcontent := ((moves_gather g).arrives _ _ _ h).store
  exact hcontent.memory

theorem run_of_gather {store : Store} {made : Manifest × Artifacts} {s : Session}
    (h : gather g (start store) = (.ok made, s)) {report : Report} {t : Store}
    (hwrite : writeFiles g.project.root g.manifestPath made.1 made.2 s.store = (.ok report, t)) :
    (g.run store).1 = .ok report ∧ (g.run store).2.1 = t := by
  have hrun : g.runIn (start store) = (.ok report, { s with store := t }) := by
    rw [runIn, bind_ok h]
    exact Prod.ext (congrArg (·.1) hwrite) (congrArg ({ s with store := ·.2 }) hwrite)
  exact ⟨congrArg (·.1) hrun, congrArg (·.2.store) hrun⟩

/-- A run that writes and removes nothing in the source directory, and none of the files that it
wrote, can be repeated: if templates look for files in the source directory only, and if their `*`
stand for the same directories as before, then the next run writes the same files, and no file
changes. -/
theorem run_again (g : Generator) (m : Memory) {report : Report}
    (h : (g.run (.memory m)).1 = .ok report)
    (houtside : ∀ entry ∈ report.written ++ report.deleted,
      (placeOf g.project.root entry).isWithin g.project.sourceDir = false)
    (hown : ∀ entry ∈ report.deleted, ∀ other ∈ report.written,
      (placeOf g.project.root entry).parts ≠ (placeOf g.project.root other).parts)
    (hlooks : g.LooksInto g.sources (.memory m))
    (henough : g.renderer.Enough (.memory m) (g.run (.memory m)).2.1 (g.trace (.memory m)))
    (hspread : ∀ t ∈ g.found (.memory m), t.spread g.project.root (.memory m)
      = t.spread g.project.root (g.run (.memory m)).2.1) :
    ∃ m₁ m₂, (g.run (.memory m)).2.1 = .memory m₁ ∧
      (g.run (.memory m₁)).1 = .ok ⟨report.written, []⟩ ∧
      (g.run (.memory m₁)).2.1 = .memory m₂ ∧ ∀ p, m₂.content? p = m₁.content? p := by
  obtain ⟨⟨previous, artifacts⟩, s, hgather, hwrite⟩ := exists_of_run h
  have hcollected : artifacts.Collected g.project.root := collected_of_gather hgather
  obtain ⟨m₀, hm₀, hfiles₀, hdirs₀⟩ := memory_of_gather hgather
  rw [hm₀] at hwrite
  -- What the first run leaves: the artifacts with their manifest, and the source directory.
  obtain ⟨m₁, hm₁, hplace⟩ := inPlace_of_outside hcollected hwrite houtside hown
  obtain ⟨m₁', heq, hsources, hdir⟩ := sources_kept hcollected hwrite houtside
  cases hm₁.symm.trans heq
  rw [hm₁] at henough hspread
  have hK : m₁.filesIn g.sources = m.filesIn g.sources :=
    hsources.trans (Memory.filesIn_congr hfiles₀)
  have hisDir : m₁.isDir g.project.sourceDir = true :=
    hdir ((congrFun (Memory.isDir_congr hdirs₀) _).trans (isDir_of_gather hgather))
  have hload := Manifest.load_saved hcollected.sound hplace.manifest
  -- The second run makes the same artifacts, and they are in place.
  obtain ⟨u, hgather'⟩ := gather_again hK hisDir hlooks henough hspread hgather hload
  obtain ⟨m₁', hstore₁, hfiles₁, hdirs₁⟩ := memory_of_gather hgather'
  obtain ⟨m₂, hwrite', hunchanged⟩ :=
    (hplace.of_content hfiles₁ hdirs₁).writeFiles hcollected.targets_apart
  rw [← hstore₁] at hwrite'
  obtain ⟨hreport, hstore⟩ := run_of_gather hgather' hwrite'
  obtain ⟨_, _, hcommit, _, _⟩ := exists_of_writeFiles hwrite
  refine ⟨m₁, m₂, hm₁, ?_, hstore, fun p => content?_congr ?_⟩
  · rw [hreport, (Artifacts.commit_ok hcommit).2]
  · rw [hunchanged p, hfiles₁]

/-- A template with a `*`, a directory for which it stands, a file that is included, and a file of an
earlier run. -/
def settled : Memory :=
  ((((Memory.empty.put ⟨"/w/s/a.md"⟩
    (.text "---\ntarget: o/*/x\n---\n\x7b\x7binclude: _p\x7d\x7d")).put ⟨"/w/s/_p"⟩ (.text "P")).put
    ⟨"/w/o/n/y"⟩ (.text "Y")).put ⟨"/w/old"⟩ (.text "O")).put ⟨"/w/s/.docgen-metadata.json"⟩
    (.text ((Manifest.mk ["old"]).toJson.pretty 0))

theorem settled_again :
    (atShort.run (.memory settled)).1 = .ok ⟨["o/n/x"], ["old"]⟩ ∧
      ∃ m₁ m₂, (atShort.run (.memory settled)).2.1 = .memory m₁ ∧
        (atShort.run (.memory m₁)).1 = .ok ⟨["o/n/x"], []⟩ ∧
        (atShort.run (.memory m₁)).2.1 = .memory m₂ ∧ ∀ p, m₂.content? p = m₁.content? p := by
  have hall : (atShort.run (.memory settled)).1 = .ok ⟨["o/n/x"], ["old"]⟩ ∧
      (∀ x ∈ atShort.trace (.memory settled), x.event.StaysIn atShort.sources) ∧
      (∀ t ∈ atShort.found (.memory settled), ∀ p ∈ t.exampleFiles ⟨"/w"⟩ .empty,
        atShort.sources p.parts = true) ∧
      ∀ t ∈ atShort.found (.memory settled), t.spread ⟨"/w"⟩ (.memory settled)
        = t.spread ⟨"/w"⟩ (atShort.run (.memory settled)).2.1 := by
    rw [trace, found, run, runIn, gather_eq, approach_eq]
    decide +kernel
  obtain ⟨hrun, hmoments, hexamples, hspread⟩ := hall
  exact ⟨hrun, run_again atShort settled hrun (by decide +kernel) (by decide +kernel)
    ⟨hmoments, hexamples⟩ (.inl ⟨.empty, rfl⟩) hspread⟩

/-! ## Runs that another run does not repeat -/

/-- A `*` that stands for nothing, until a directory is created for a file of the run. -/
def spreading : Memory :=
  (Memory.empty.put ⟨"/w/s/a.md"⟩ (.text "---\ntarget: o/*/x\n---\nA")).put
    ⟨"/w/s/b.md"⟩ (.text "---\ntarget: o/n/y\n---\nB")

/-- A file that is included, and is said to be a file of the run before. -/
def outdatedPart : Memory :=
  ((Memory.empty.put ⟨"/w/s/a.md"⟩
    (.text "---\ntarget: d\n---\n\x7b\x7binclude: _p\x7d\x7d")).put ⟨"/w/s/_p"⟩ (.text "P")).put
    ⟨"/w/s/.docgen-metadata.json"⟩ (.text ((Manifest.mk ["s/_p"]).toJson.pretty 0))

/-- A template that includes the manifest. -/
def manifestPart : Memory :=
  (Memory.empty.put ⟨"/w/s/a.md"⟩
    (.text "---\ntarget: d\n---\n\x7b\x7binclude: .docgen-metadata.json\x7d\x7d")).put
    ⟨"/w/s/.docgen-metadata.json"⟩ (.text ((Manifest.mk []).toJson.pretty 0))

/-- A generator with one command, which links to the documentation of packages. -/
def withPackages : Generator := { atShort with registry := [.package ""] }

/-- A package whose documentation is a file of the run. -/
def packaged : Memory :=
  (Memory.empty.put ⟨"/w/s/a.md"⟩ (.text "---\ntarget: d\n---\n\x7b\x7b@package: p, P\x7d\x7d")).put
    ⟨"/w/s/b.md"⟩ (.text "---\ntarget: vendor/p/CLAUDE.md\n---\nB")

/-- A command that tells whether there are files of one name. -/
def tells : Command where
  name := "tells"
  invoke scope args := do
    let files ← CommandScript.ask (.files scope.root (args.getD 0 ""))
    return if files.isEmpty then "none" else "some"

def toldPart : Memory :=
  Memory.empty.put ⟨"/w/s/a.md"⟩ (.text "---\ntarget: d\n---\n\x7b\x7btells: d\x7d\x7d")

/-- The next run may differ although all files are written outside of the source directory and
templates read only files inside: it may find more directories for a `*`, miss a file that was
removed, or find other text in the manifest; and a command may look for files that were written. -/
theorem runs_differ :
    (atShort.reads (.memory spreading) = [] ∧
      (atShort.run (.memory spreading)).1 = .ok ⟨["o/n/y"], []⟩ ∧
      (atShort.run (atShort.run (.memory spreading)).2.1).1 = .ok ⟨["o/n/x", "o/n/y"], []⟩) ∧
    (atShort.reads (.memory outdatedPart) = [⟨"/w/s/_p"⟩] ∧
      (atShort.run (.memory outdatedPart)).1 = .ok ⟨["d"], ["s/_p"]⟩ ∧
      (atShort.run (atShort.run (.memory outdatedPart)).2.1).1
        = .error (.ofRender "s/a.md" (.ofCommand ⟨"/w/s/a.md"⟩ "include"
            (.missingFile ⟨"/w/s/_p"⟩)))) ∧
    (atShort.reads (.memory manifestPart) = [⟨"/w/s/.docgen-metadata.json"⟩] ∧
      (atShort.run (.memory manifestPart)).1 = .ok ⟨["d"], []⟩ ∧
      (readText ⟨"/w/d"⟩ (atShort.run (.memory manifestPart)).2.1).1
        = .ok "\x7b\n  \"files\": []\n\x7d\n" ∧
      (readText ⟨"/w/d"⟩ (atShort.run (atShort.run (.memory manifestPart)).2.1).2.1).1
        = .ok "\x7b\n  \"files\": [\n    \"d\"\n  ]\n\x7d\n") ∧
    (withPackages.reads (.memory packaged) = [] ∧
      (withPackages.run (.memory packaged)).1 = .ok ⟨["d", "vendor/p/CLAUDE.md"], []⟩ ∧
      (readText ⟨"/w/d"⟩ (withPackages.run (.memory packaged)).2.1).1 = .ok "\n" ∧
      (readText ⟨"/w/d"⟩ (withPackages.run (withPackages.run (.memory packaged)).2.1).2.1).1
        = .ok "## Documentations\n\n\n- P - @vendor/p/CLAUDE.md\n") ∧
    (alsoWith tells).reads (.memory toldPart) = [] ∧
      ((alsoWith tells).run (.memory toldPart)).1 = .ok ⟨["d"], []⟩ ∧
      (readText ⟨"/w/d"⟩ ((alsoWith tells).run (.memory toldPart)).2.1).1 = .ok "none\n" ∧
      (readText ⟨"/w/d"⟩ ((alsoWith tells).run
        ((alsoWith tells).run (.memory toldPart)).2.1).2.1).1 = .ok "some\n" := by
  refine ⟨?spreading, ?outdatedPart, ?manifestPart, ?packaged, ?toldPart⟩
  all_goals
    rw [reads, trace, found, run, run, runIn, gather_eq, approach_eq]
    decide +kernel

end Generator
end AgentDocs
