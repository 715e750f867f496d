import AgentDocs.Proofs.Generate.Outcome
import AgentDocs.Proofs.Path.Inside
import AgentDocs.Proofs.Store.Confined

/-! # A run stays inside of its root

Whatever templates declare and whatever manifest is found: the files that a run writes or removes
lie strictly inside of the root, its manifest aside, and so do the directories that it removes.
Artifacts are names below the root, and an entry of a manifest is accepted only if it comes to
names, so that it leads inside of any directory in which it is read. -/
namespace AgentDocs
open Effect Store Session

variable {root : Path} {File Dir : Path → Prop}

/-! ## Writing -/

namespace Artifacts

theorem confined_ensureParent (p : Path) : Moves (Confined File Dir) (ensureParent p) := by
  unfold ensureParent
  split
  · exact moves_pure _
  · refine (confined_isDir _).bind fun found => ?_
    split
    · exact moves_pure _
    · exact confined_createDirs _

theorem confined_writeItem {a : Artifact} (h : File (root.child a.path)) :
    Moves (Confined File Dir) (writeItem root a) :=
  (confined_ensureParent _).bind fun _ => confined_writeText h _

theorem confined_commit {as : Artifacts} (h : ∀ a ∈ as.items, File (as.root.child a.path)) :
    Moves (Confined File Dir) as.commit := by
  have hforM : ∀ items : List Artifact, (∀ a ∈ items, File (as.root.child a.path)) →
      Moves (Confined File Dir) (items.forM (writeItem as.root)) := by
    intro items
    induction items with
    | nil => exact fun _ => moves_pure _
    | cons a items ih =>
      intro hitems
      exact (confined_writeItem (hitems a List.mem_cons_self)).bind fun _ =>
        ih fun b hb => hitems b (List.mem_cons_of_mem _ hb)
  exact (hforM as.items h).bind fun _ => moves_pure _

theorem Collected.inside {as : Artifacts} (h : Collected root as) (hroot : root.normal = root) :
    ∀ a ∈ as.items, Path.Inside root (as.root.child a.path) := by
  intro a ha
  obtain ⟨names, hn, hne, hpath⟩ := h.below a ha
  rw [h.root_eq, hroot, hpath]
  exact Path.inside_child_slashed root hn hne

end Artifacts

/-! ## Removing -/

/-- The directories are visited from the inside out, as long as they lie inside. -/
theorem confined_pruneDirs {dirs : List Path}
    (hdirs : ∀ dir ∈ dirs, dir.isWithin root = true → dir.same root = false → Dir dir) :
    Moves (Confined File Dir) (pruneDirs root dirs) := by
  induction dirs with
  | nil => exact moves_pure _
  | cons dir outer ih =>
    unfold pruneDirs
    split
    · exact moves_pure _
    rename_i hinside
    refine (confined_isDir _).bind fun found => ?_
    split
    · exact moves_pure _
    refine (confined_isEmptyDir _).bind fun empty => ?_
    split
    · exact moves_pure _
    · simp only [Bool.or_eq_true, Bool.not_eq_true', not_or, Bool.not_eq_true,
        Bool.not_eq_false] at hinside
      exact (confined_removeDir (hdirs dir List.mem_cons_self hinside.2 hinside.1)).bind fun _ =>
        ih fun d hd => hdirs d (List.mem_cons_of_mem _ hd)

theorem inside_placeOf (hroot : root.normal = root) {entry : String}
    (h : Manifest.isInside entry = true) : Path.Inside root (placeOf root entry) :=
  Path.inside_of_isContained hroot (Bool.and_eq_true_iff.1 h).2

theorem confined_removeStale (hroot : root.normal = root) {entries : List String}
    (hentries : ∀ entry ∈ entries, Manifest.isInside entry = true)
    (hfile : ∀ p, Path.Inside root p → File p) :
    Moves (Confined File (Path.Inside root)) (removeStale root entries) := by
  induction entries with
  | nil => exact moves_pure _
  | cons entry entries ih =>
    have hplace := inside_placeOf hroot (hentries entry List.mem_cons_self)
    have hrest := ih fun e he => hentries e (List.mem_cons_of_mem _ he)
    unfold removeStale
    refine (confined_isFile _).bind fun found => ?_
    split
    · refine (confined_remove (hfile _ hplace)).bind fun _ => ?_
      refine (confined_pruneDirs fun dir hdir =>
        Path.inside_of_mem_tail_ancestors hplace hdir).bind fun _ => ?_
      exact hrest.bind fun _ => moves_pure _
    · exact hrest

/-! ## Runs -/

namespace Manifest

theorem inside_of_ofText {text : String} {m : Manifest} (h : ofText text = .ok m) :
    ∀ entry ∈ m.files, isInside entry = true := by
  unfold ofText at h
  split at h
  · cases h
  · split at h
    · cases h
    · rename_i hfind
      cases h
      intro entry he
      simpa using List.find?_eq_none.1 hfind entry he

/-- What is accepted of a manifest leads inside. -/
theorem inside_of_load {path : Path} {s t : Store} {m : Manifest}
    (h : load path s = (.ok m, t)) : ∀ entry ∈ m.files, isInside entry = true := by
  obtain ⟨found, s₁, _, h⟩ := exists_of_bind_ok h
  cases found with
  | false =>
    cases h
    simp
  | true =>
    obtain ⟨text, s₂, _, h⟩ := exists_of_bind_ok h
    have hresult : (ofText text).mapError (GenerateError.ofManifest path) = .ok m :=
      congrArg (·.1) h
    exact inside_of_ofText (Except.of_mapError_ok hresult)

end Manifest

namespace Generator

/-- Where a run may write and remove files: strictly inside of the root, and at its manifest. -/
def MayWrite (g : Generator) (p : Path) : Prop :=
  Path.Inside g.project.root p ∨ p = g.manifestPath

theorem inside_of_gather {g : Generator} {s t : Session} {made : Manifest × Artifacts}
    (h : g.gather s = (.ok made, t)) :
    ∀ entry ∈ made.1.files, Manifest.isInside entry = true := by
  obtain ⟨s₁, s₂, _, hload, _⟩ := exists_of_gather h
  exact Manifest.inside_of_load (t := (Manifest.load g.manifestPath s₁.store).2)
    (Prod.ext (congrArg (·.1) hload) rfl)

theorem confined_writeFiles {g : Generator} {previous : Manifest} {artifacts : Artifacts}
    (hroot : g.project.root.normal = g.project.root) (hc : artifacts.Collected g.project.root)
    (hprevious : ∀ entry ∈ previous.files, Manifest.isInside entry = true) :
    Moves (Confined g.MayWrite (Path.Inside g.project.root))
      (writeFiles g.project.root g.manifestPath previous artifacts) := by
  refine Moves.bind (Task.moves_wrapError
    (Artifacts.confined_commit fun a ha => .inl (hc.inside hroot a ha))) fun written => ?_
  refine Moves.bind (Task.moves_wrapError (confined_removeStale hroot
    (fun entry he => hprevious entry (Manifest.mem_stale.1 he).1) fun p => .inl)) fun deleted => ?_
  refine Moves.bind (Task.moves_wrapError (confined_writeText (.inr rfl) _)) fun _ => moves_pure _

/-- The manifest of a project with an absolute root is at a path from the root of all files. -/
theorem rooted_manifestPath {g : Generator} (habs : g.project.root.isAbsolute = true) :
    g.manifestPath.Rooted := by
  have hsource : g.project.sourceDir.Rooted := Path.rooted_normal (Path.isAbsolute_join habs)
  have hfile : (Part.name Manifest.fileName).Proper := by simp [Part.Proper, Manifest.fileName]
  exact hsource.append (Path.areNames_nil.cons ⟨rfl, hfile⟩)
    (Path.parts_child_name g.project.sourceDir hfile)

/-- Runs write and remove files strictly inside of the root only, their manifest aside, and
remove directories there only, however they end. Nothing else is changed in the store. -/
theorem run_confined (g : Generator) (store : Store) (habs : g.project.root.isAbsolute = true)
    (hroot : g.project.root.normal = g.project.root) :
    Confined g.MayWrite (Path.Inside g.project.root) store (g.run store).2.1 ∧
      Untouched g.MayWrite (Path.Inside g.project.root) store (g.run store).2.1 := by
  have hconfined :
      Confined g.MayWrite (Path.Inside g.project.root) store (g.run store).2.1 := by
    have hgathered : Confined g.MayWrite (Path.Inside g.project.root) store
        (g.gather (start store)).2.store := (moves_gather g (start store)).store.confined
    cases hg : g.gather (start store) with
    | mk result s =>
      rw [hg] at hgathered
      cases result with
      | error e =>
        have hrun : g.runIn (start store) = (.error e, s) := bind_error hg
        rw [show (g.run store).2.1 = s.store from congrArg (·.2.store) hrun]
        exact hgathered
      | ok made =>
        have hrun := bind_ok (f := fun made => Within.onStore
          (writeFiles g.project.root g.manifestPath made.1 made.2)) hg
        rw [show (g.run store).2.1 = (writeFiles g.project.root g.manifestPath made.1 made.2
          s.store).2 from congrArg (·.2.store) hrun]
        exact Trans.trans hgathered
          (confined_writeFiles hroot (collected_of_gather hg) (inside_of_gather hg) s.store)
  have hrooted : ∀ p, Path.Inside g.project.root p → p.Rooted := by
    rintro p ⟨names, hn, _, hp⟩
    have hnames : g.project.root.Rooted := Path.exists_names_of_isAbsolute hroot habs
    exact hnames.append hn hp
  refine ⟨hconfined, hconfined.untouched (fun p hp => ?_) hrooted⟩
  rcases hp with hp | rfl
  · exact hrooted p hp
  · exact rooted_manifestPath habs

theorem renamed_target_confined :
    (atWork.run (.memory renamedTarget)).1 = .ok ⟨["NEW.md"], ["OLD.md"]⟩ ∧
      Confined atWork.MayWrite (Path.Inside atWork.project.root) (.memory renamedTarget)
        (atWork.run (.memory renamedTarget)).2.1 ∧
      Untouched atWork.MayWrite (Path.Inside atWork.project.root) (.memory renamedTarget)
        (atWork.run (.memory renamedTarget)).2.1 :=
  ⟨by decide +kernel, run_confined _ _ (by decide +kernel) (by decide +kernel)⟩

end Generator
end AgentDocs
