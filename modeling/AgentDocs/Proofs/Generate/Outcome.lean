import AgentDocs.Proofs.Generate.Gather
import AgentDocs.Proofs.Generate.ManifestText
import AgentDocs.Proofs.Generate.Writing

/-! # What a run leaves behind

A run that ends well leaves its artifacts and its manifest, removes what only the run before
made, and touches no other file. The manifest that it finds may be any that a run has saved: its
entries are places below the root, each once, so that a stale entry is no artifact under another
spelling. -/
namespace AgentDocs
open Effect Store Session

namespace Manifest

/-- Whether entries are places below the root, each once and in order. -/
structure Sound (m : Manifest) : Prop where
  below : ∀ entry ∈ m.files, IsBelow entry
  sorted : m.files.Pairwise (· < ·)

theorem sound_nil : Sound ⟨[]⟩ := ⟨by simp, .nil⟩

theorem Sound.stale {m : Manifest} (h : Sound m) (current : Manifest) : Sound ⟨m.stale current⟩ :=
  ⟨fun _ he => h.below _ (List.mem_filter.1 he).1, h.sorted.filter _⟩

theorem Sound.apart {m : Manifest} (h : Sound m) (root : Path) :
    m.files.Pairwise fun a b => (placeOf root a).parts ≠ (placeOf root b).parts := by
  refine h.sorted.imp_of_mem fun {a b} ha hb hlt he => ?_
  rw [placeOf_injective (h.below a ha) (h.below b hb) he] at hlt
  exact String.lt_irrefl _ hlt

theorem mem_stale {m current : Manifest} {entry : String} :
    entry ∈ m.stale current ↔ entry ∈ m.files ∧ entry ∉ current.files := by
  simp [stale]

theorem ofText_pretty {m : Manifest} (h : Sound m) : ofText (m.toJson.pretty 0) = .ok m := by
  have hfind : m.files.find? (fun entry => !isInside entry) = none :=
    List.find?_eq_none.2 fun entry he => by simp [(h.below entry he).isInside]
  simp only [ofText, read?_pretty, hfind]

/-- A manifest is loaded as it was saved. -/
theorem load_saved {m : Manifest} (h : Sound m) {path : Path} {mem : Memory}
    (hfile : PathMap.get? path mem.files = some (.text (m.toJson.pretty 0))) :
    (load path (.memory mem)).1 = .ok m := by
  have hexists : (isFile path).wrapError GenerateError.ofStore (.memory mem)
      = (.ok true, .memory mem) := by
    rw [Task.wrapError_ok, isFile_memory, isFile_iff.2 ⟨_, hfile⟩]
  have hread : (readText path).wrapError GenerateError.ofStore (.memory mem)
      = (.ok (m.toJson.pretty 0), .memory (mem.noteRead path)) := by
    have hcontent : Store.read path (.memory mem)
        = (.ok (.text (m.toJson.pretty 0)), .memory (mem.noteRead path)) := by
      simp only [Store.read, content?_eq_ok_iff.2 hfile]
    rw [Task.wrapError_ok, readText, bind_ok hcontent]
    rfl
  rw [load, bind_ok hexists, if_pos rfl, bind_ok hread, ofText_pretty h]
  rfl

theorem load_absent {path : Path} {mem : Memory} (h : PathMap.get? path mem.files = none) :
    (load path (.memory mem)).1 = .ok ⟨[]⟩ := by
  have hexists : (isFile path).wrapError GenerateError.ofStore (.memory mem)
      = (.ok false, .memory mem) := by
    rw [Task.wrapError_ok, isFile_memory, Memory.isFile, PathMap.has, h]
    rfl
  rw [load, bind_ok hexists]
  rfl

end Manifest

/-- What holds after files were written, of the store and of the report. -/
structure Outcome (root manifestPath : Path) (before after : Memory) (previous : Manifest)
    (artifacts : Artifacts) (report : Report) : Prop where
  written : report.written = artifacts.items.map (·.path)
  sorted : report.written.Pairwise (· < ·)
  artifact : ∀ a ∈ artifacts.items, ¬(placeOf root a.path).same manifestPath →
    after.content? (placeOf root a.path) = .ok (.text a.content)
  manifest : (Manifest.load manifestPath (.memory after)).1 = .ok ⟨report.written⟩
  removed : ∀ entry ∈ previous.files, entry ∉ report.written →
    ¬(placeOf root entry).same manifestPath → after.isFile (placeOf root entry) = false
  deleted : report.deleted = previous.files.filter fun entry =>
    !report.written.contains entry && before.isFile (placeOf root entry)
  others : ∀ p, (∀ entry ∈ report.written ++ previous.files, ¬(placeOf root entry).same p) →
    ¬manifestPath.same p → after.content? p = before.content? p

/-- Of the store before only its files count. -/
theorem Outcome.of_files {root manifestPath : Path} {before m after : Memory}
    {previous : Manifest} {artifacts : Artifacts} {report : Report}
    (h : Outcome root manifestPath m after previous artifacts report)
    (hfiles : m.files = before.files) :
    Outcome root manifestPath before after previous artifacts report where
  written := h.written
  sorted := h.sorted
  artifact := h.artifact
  manifest := h.manifest
  removed := h.removed
  deleted := by
    have hisFile : m.isFile = before.isFile := by
      funext p
      rw [Memory.isFile, hfiles, Memory.isFile]
    rw [← hisFile]
    exact h.deleted
  others p hp₁ hp₂ := (h.others p hp₁ hp₂).trans (content?_congr (by rw [hfiles]))

namespace Artifacts

theorem Collected.sound {root : Path} {as : Artifacts} (h : Collected root as) :
    as.manifest.Sound where
  below := by
    intro entry he
    obtain ⟨a, ha, rfl⟩ := List.mem_map.1 he
    exact h.below a ha
  sorted := h.sorted

end Artifacts

namespace Generator

/-- The three steps of writing, with the stores between them. -/
theorem exists_of_writeFiles {root manifestPath : Path} {previous : Manifest}
    {artifacts : Artifacts} {report : Report} {s t : Store}
    (h : writeFiles root manifestPath previous artifacts s = (.ok report, t)) :
    ∃ s₁ s₂, artifacts.commit s = (.ok report.written, s₁) ∧
      removeStale root (previous.stale artifacts.manifest) s₁ = (.ok report.deleted, s₂) ∧
      Store.writeText manifestPath (artifacts.manifest.toJson.pretty 0) s₂ = (.ok (), t) := by
  obtain ⟨written, s₁, hcommit, h⟩ := exists_of_bind_ok h
  obtain ⟨deleted, s₂, hstale, h⟩ := exists_of_bind_ok h
  obtain ⟨_, s₃, hsave, h⟩ := exists_of_bind_ok h
  cases h
  exact ⟨s₁, s₂, Task.wrapError_ok.1 hcommit, Task.wrapError_ok.1 hstale,
    Task.wrapError_ok.1 hsave⟩

/-- No stale entry leads to the place of an artifact. -/
theorem apart_of_stale {root : Path} {previous : Manifest} {artifacts : Artifacts}
    (hc : artifacts.Collected root) (hp : previous.Sound) :
    ∀ entry ∈ previous.stale artifacts.manifest, ∀ a ∈ artifacts.items,
      (placeOf root entry).parts ≠ (placeOf root a.path).parts := by
  intro entry he a ha hparts
  obtain ⟨hprev, hnew⟩ := Manifest.mem_stale.1 he
  have heq := placeOf_injective (hp.below entry hprev) (hc.below a ha) hparts
  exact hnew (heq ▸ List.mem_map_of_mem ha)

theorem outcome_of_writeFiles {root manifestPath : Path} {previous : Manifest}
    {artifacts : Artifacts} {report : Report} {m : Memory} {t : Store}
    (habs : root.isAbsolute = true) (hc : artifacts.Collected root) (hp : previous.Sound)
    (h : writeFiles root manifestPath previous artifacts (.memory m) = (.ok report, t)) :
    ∃ m', t = .memory m' ∧ Outcome root manifestPath m m' previous artifacts report := by
  obtain ⟨s₁, s₂, hcommit, hstale, hsave⟩ := exists_of_writeFiles h
  obtain ⟨hforM, hwritten⟩ := Artifacts.commit_ok hcommit
  obtain ⟨m₁, rfl, hin, hout⟩ := Artifacts.files_of_forM_writeItem (hc.apart habs) hforM
  obtain ⟨m₂, rfl, hdeleted, hgone, hkept⟩ := files_of_removeStale ((hp.stale _).apart root) hstale
  obtain ⟨m₃, rfl, hm₃⟩ := files_of_writeText hsave
  have hfiles : artifacts.manifest.files = report.written := hwritten.symm
  have hdistinct := apart_of_stale hc hp
  refine ⟨m₃, rfl, ?_⟩
  constructor
  case written => exact hwritten
  case sorted =>
    rw [hwritten]
    exact hc.sorted
  case artifact =>
    intro a ha hne
    rw [Path.same_iff] at hne
    rw [content?_eq_ok_iff, hm₃, PathMap.get?_insert_of_ne (Ne.symm hne),
      hkept _ fun e he => hdistinct e he a ha, ← PathMap.get?_congr (hc.parts_child habs ha)]
    exact hin a ha
  case manifest =>
    have hsound := hc.sound
    rw [← hfiles]
    exact Manifest.load_saved hsound (by rw [hm₃, PathMap.get?_insert_of_same rfl])
  case removed =>
    intro entry he hnew hne
    rw [Path.same_iff] at hne
    have hs : entry ∈ previous.stale artifacts.manifest := Manifest.mem_stale.2 ⟨he, hfiles ▸ hnew⟩
    rw [Memory.isFile, PathMap.has, hm₃, PathMap.get?_insert_of_ne (Ne.symm hne), hgone entry hs]
    rfl
  case deleted =>
    have hsame : ∀ entry ∈ previous.stale artifacts.manifest,
        m₁.isFile (placeOf root entry) = m.isFile (placeOf root entry) := by
      intro entry he
      refine isFile_congr (hout _ fun a ha => ?_)
      rw [hc.parts_child habs ha]
      exact (hdistinct entry he a ha).symm
    rw [hdeleted, List.filter_congr hsame, Manifest.stale, List.filter_filter, hfiles]
    simp only [Bool.and_comm]
  case others =>
    intro p hp₁ hp₂
    refine content?_congr ?_
    have hmanifest : manifestPath.parts ≠ p.parts := fun he => hp₂ (Path.same_iff.2 he)
    have hplace : ∀ entry ∈ report.written ++ previous.files,
        (placeOf root entry).parts ≠ p.parts :=
      fun entry he hparts => hp₁ entry he (Path.same_iff.2 hparts)
    have hartifact : ∀ a ∈ artifacts.items, (artifacts.root.child a.path).parts ≠ p.parts := by
      intro a ha
      rw [hc.parts_child habs ha]
      exact hplace a.path (List.mem_append_left _ (hwritten ▸ List.mem_map_of_mem ha))
    have hentry : ∀ entry ∈ previous.stale artifacts.manifest,
        (placeOf root entry).parts ≠ p.parts := fun entry he =>
      hplace entry (List.mem_append_right _ (Manifest.mem_stale.1 he).1)
    rw [hm₃, PathMap.get?_insert_of_ne hmanifest, hkept p hentry, hout p hartifact]

/-! ## Runs -/

/-- A run that ends well gathered its artifacts and wrote them. -/
theorem exists_of_run {g : Generator} {store : Store} {report : Report}
    (h : (g.run store).1 = .ok report) :
    ∃ made s, g.gather (start store) = (.ok made, s) ∧
      writeFiles g.project.root g.manifestPath made.1 made.2 s.store
        = (.ok report, (g.run store).2.1) := by
  have hrun : g.runIn (start store) = (.ok report, (g.runIn (start store)).2) := Prod.ext h rfl
  obtain ⟨made, s, hgather, hwrite⟩ := exists_of_bind_ok hrun
  refine ⟨made, s, hgather, Prod.ext ?_ ?_⟩
  · exact congrArg (·.1) hwrite
  · exact congrArg (·.2.store) hwrite

/-- Gathering looks for the source directory, loads the manifest and collects artifacts. -/
theorem exists_of_gather {g : Generator} {s t : Session} {made : Manifest × Artifacts}
    (h : g.gather s = (.ok made, t)) :
    ∃ s₁ s₂, s₁.store = (isDir g.project.sourceDir s.store).2 ∧
      Within.onStore (Manifest.load g.manifestPath) s₁ = (.ok made.1, s₂) ∧
      g.collectArtifacts s₂ = (.ok made.2, t) := by
  obtain ⟨found, s₁, hdir, h⟩ := exists_of_bind_ok h
  have hs₁ : s₁.store = (isDir g.project.sourceDir s.store).2 := by
    have := congrArg (·.2.store) hdir
    exact this.symm
  cases found with
  | false =>
    obtain ⟨_, s₂, hthrow, _⟩ := exists_of_bind_ok h
    cases hthrow
  | true =>
    obtain ⟨previous, s₂, hload, h⟩ := exists_of_bind_ok h
    obtain ⟨artifacts, s₃, hcollect, h⟩ := exists_of_bind_ok h
    cases h
    exact ⟨s₁, s₂, hs₁, hload, hcollect⟩

theorem collected_of_gather {g : Generator} {s t : Session} {made : Manifest × Artifacts}
    (h : g.gather s = (.ok made, t)) : made.2.Collected g.project.root := by
  obtain ⟨s₁, s₂, _, _, hcollect⟩ := exists_of_gather h
  exact yields_collectArtifacts g s₂ _ _ hcollect

theorem load_of_gather {g : Generator} {m : Memory} {made : Manifest × Artifacts} {t : Session}
    (h : g.gather (start (.memory m)) = (.ok made, t)) :
    (Manifest.load g.manifestPath (.memory m)).1 = .ok made.1 := by
  obtain ⟨s₁, s₂, hs₁, hload, _⟩ := exists_of_gather h
  have hstore : s₁.store = .memory m := hs₁
  rw [← hstore]
  exact congrArg (·.1) hload

theorem sound_of_run {g : Generator} {store : Store} {report : Report}
    (h : (g.run store).1 = .ok report) : Manifest.Sound ⟨report.written⟩ := by
  obtain ⟨made, s, hgather, hwrite⟩ := exists_of_run h
  obtain ⟨s₁, s₂, hcommit, _, _⟩ := exists_of_writeFiles hwrite
  rw [(Artifacts.commit_ok hcommit).2]
  exact (collected_of_gather hgather).sound

/-- A manifest that a run has saved. -/
def SavedByRun (content : Content) : Prop :=
  ∃ (g : Generator) (store : Store) (report : Report), (g.run store).1 = .ok report ∧
    content = .text ((Manifest.mk report.written).toJson.pretty 0)

/-- What is loaded is sound if there is no manifest, or one that a run has saved. -/
theorem sound_of_load {path : Path} {m : Memory} {previous : Manifest}
    (hsaved : ∀ content, m.content? path = .ok content → SavedByRun content)
    (h : (Manifest.load path (.memory m)).1 = .ok previous) : previous.Sound := by
  cases hget : PathMap.get? path m.files with
  | none =>
    rw [Manifest.load_absent hget] at h
    cases h
    exact Manifest.sound_nil
  | some content =>
    obtain ⟨g, store, report, hrun, rfl⟩ := hsaved content (content?_eq_ok_iff.2 hget)
    have hsound := sound_of_run hrun
    rw [Manifest.load_saved hsound hget] at h
    cases h
    exact hsound

/-- A run that ends well on a store in memory, for a project with an absolute root and over no
manifest or one that a run has saved, leaves exactly its artifacts and its manifest, and what it
did not have to remove. -/
theorem run_outcome (g : Generator) (m : Memory) (report : Report)
    (habs : g.project.root.isAbsolute = true)
    (hsaved : ∀ content, m.content? g.manifestPath = .ok content → SavedByRun content)
    (h : (g.run (.memory m)).1 = .ok report) :
    ∃ previous artifacts m',
      (Manifest.load g.manifestPath (.memory m)).1 = .ok previous ∧
      (g.gather (start (.memory m))).1 = .ok (previous, artifacts) ∧
      (g.run (.memory m)).2.1 = .memory m' ∧
      Outcome g.project.root g.manifestPath m m' previous artifacts report := by
  obtain ⟨⟨previous, artifacts⟩, s, hgather, hwrite⟩ := exists_of_run h
  have hload := load_of_gather hgather
  have hcontent : SameContent (.memory m) s.store := by
    have := (moves_gather g (start (.memory m))).store
    rwa [hgather] at this
  obtain ⟨m₁, hm₁, hfiles, _⟩ := hcontent.memory
  rw [hm₁] at hwrite
  obtain ⟨m', hm', hout⟩ := outcome_of_writeFiles habs (collected_of_gather hgather)
    (sound_of_load hsaved hload) hwrite
  exact ⟨previous, artifacts, m', hload, by rw [hgather], hm', hout.of_files hfiles⟩

/-- A project at `/work` with the builtin commands. -/
def atWork : Generator := make (.standard ⟨"/work"⟩) .empty

/-- One template, and nothing else. -/
def onlyGuide (target : String) : Memory :=
  Memory.empty.put ⟨"/work/docs-src/guide.md"⟩
    (.text ("---\ntarget: " ++ target ++ "\n---\nHello."))

/-- A template whose target was renamed after a run. -/
def renamedTarget : Memory :=
  ((onlyGuide "NEW.md").put ⟨"/work/OLD.md"⟩ (.text "Hello.\n")).put
    ⟨"/work/docs-src/.docgen-metadata.json"⟩ (.text ((Manifest.mk ["OLD.md"]).toJson.pretty 0))

theorem renamed_target_outcome :
    (atWork.run (.memory renamedTarget)).1 = .ok ⟨["NEW.md"], ["OLD.md"]⟩ ∧
      ∃ previous artifacts m',
        (Manifest.load atWork.manifestPath (.memory renamedTarget)).1 = .ok previous ∧
        (atWork.gather (start (.memory renamedTarget))).1 = .ok (previous, artifacts) ∧
        (atWork.run (.memory renamedTarget)).2.1 = .memory m' ∧
        Outcome atWork.project.root atWork.manifestPath renamedTarget m' previous artifacts
          ⟨["NEW.md"], ["OLD.md"]⟩ := by
  have hearlier : (atWork.run (.memory (onlyGuide "OLD.md"))).1 = .ok ⟨["OLD.md"], []⟩ := by
    decide +kernel
  have hrun : (atWork.run (.memory renamedTarget)).1 = .ok ⟨["NEW.md"], ["OLD.md"]⟩ := by
    decide +kernel
  have hfile : renamedTarget.content? atWork.manifestPath
      = .ok (.text ((Manifest.mk ["OLD.md"]).toJson.pretty 0)) := by
    decide +kernel
  refine ⟨hrun, run_outcome atWork renamedTarget _ (by decide +kernel) (fun content hc => ?_) hrun⟩
  rw [hfile] at hc
  cases hc
  exact ⟨atWork, _, _, hearlier, rfl⟩

end Generator
end AgentDocs
