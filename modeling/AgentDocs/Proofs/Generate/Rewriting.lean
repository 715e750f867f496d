import AgentDocs.Proofs.Generate.Confined
import AgentDocs.Proofs.Generate.Reconcile
import AgentDocs.Proofs.Store.Region

/-! # Writing what is there

Artifacts that were written are in place, with their manifest, if none of them was removed as stale.
Artifacts that are in place can be written again, and then every file stays as it was. -/
namespace AgentDocs
open Effect Store

namespace Artifacts
variable {root : Path} {as : Artifacts}

/-- An artifact is written where its path leads, whatever the root is. -/
theorem Collected.parts_target (h : Collected root as) {a : Artifact} (ha : a ∈ as.items) :
    (as.root.child a.path).parts = (placeOf root a.path).parts := by
  obtain ⟨names, hpath, hnames, hplace⟩ := (h.below a ha).parts_placeOf root
  rw [hplace, h.root_eq, hpath, Path.parts_child_names _ hnames]

theorem Collected.targets_apart (h : Collected root as) : Apart as.root as.items := by
  refine (List.pairwise_map.1 h.sorted).imp_of_mem fun {a b} ha hb hlt he => ?_
  rw [h.parts_target ha, h.parts_target hb] at he
  rw [placeOf_injective (h.below a ha) (h.below b hb) he] at hlt
  exact String.lt_irrefl _ hlt

/-! ## Where a file can be written -/

/-- Whether a file can be written at a path, once the directory around it is created: only the
empty path cannot be created. -/
def Writable (m : Memory) (p : Path) : Prop :=
  ∃ dir, p.parent? = some dir ∧ (dir.text = "" → m.isDir dir = true)

theorem Writable.mono {m m' : Memory} {p : Path} (h : Writable m p)
    (hdirs : ∀ q : Path, q.text = "" → m.isDir q = true → m'.isDir q = true) : Writable m' p := by
  obtain ⟨dir, hparent, hdir⟩ := h
  exact ⟨dir, hparent, fun he => hdirs dir he (hdir he)⟩

theorem isDir_of_writeText {p : Path} {text : String} {m : Memory} {t : Store}
    (h : writeText p text (.memory m) = (.ok (), t)) :
    ∃ dir, p.parent? = some dir ∧ m.isDir dir = true ∧ t = .memory (m.setFile p (.text text)) := by
  simp only [writeText, write, change] at h
  split at h
  · rename_i m' hm
    obtain ⟨dir, hparent, hdir, rfl⟩ := Memory.eq_of_write hm
    cases h
    exact ⟨dir, hparent, hdir, rfl⟩
  · cases h

theorem writeText_of_isDir {p dir : Path} {m : Memory} (hparent : p.parent? = some dir)
    (hdir : m.isDir dir = true) (text : String) :
    writeText p text (.memory m) = (.ok (), .memory (m.setFile p (.text text))) := by
  simp only [writeText, write, change, Memory.write, hparent, hdir, if_true]

variable {a : Artifact} {m : Memory}

theorem isDir_of_writeItem {t : Store} (h : writeItem root a (.memory m) = (.ok (), t)) :
    ∃ m', t = .memory m' ∧ Writable m' (root.child a.path) ∧
      ∀ q, m.isDir q = true → m'.isDir q = true := by
  have hconfined : Confined (fun _ => True) (fun _ => False) (.memory m) t :=
    (confined_writeItem trivial).arrives _ _ _ h
  obtain ⟨_, s₁, hdir, hwrite⟩ := exists_of_bind_ok h
  obtain ⟨m₁, rfl, _⟩ := files_of_moves (sameFiles_ensureParent _) hdir
  obtain ⟨dir, hparent, hisDir, rfl⟩ := isDir_of_writeText hwrite
  refine ⟨_, rfl, ⟨dir, hparent, fun _ => hisDir⟩, fun q hq => ?_⟩
  obtain ⟨m', heq, hm'⟩ := hconfined.isDir (fun _ => False.elim) hq
  cases heq
  exact hm'

theorem writable_of_forM {items : List Artifact} {t : Store}
    (h : items.forM (writeItem root) (.memory m) = (.ok (), t)) :
    ∃ m', t = .memory m' ∧ (∀ a ∈ items, Writable m' (root.child a.path)) ∧
      ∀ q, m.isDir q = true → m'.isDir q = true := by
  induction items generalizing m with
  | nil =>
    cases h
    exact ⟨m, rfl, by simp, fun _ => id⟩
  | cons a items ih =>
    obtain ⟨_, s₁, hfirst, hrest⟩ := exists_of_bind_ok h
    obtain ⟨m₁, rfl, ha, hdirs⟩ := isDir_of_writeItem hfirst
    obtain ⟨m₂, rfl, hitems, hdirs'⟩ := ih hrest
    refine ⟨m₂, rfl, fun b hb => ?_, fun q => hdirs' q ∘ hdirs q⟩
    rcases List.mem_cons.1 hb with rfl | hb
    · exact ha.mono fun q _ => hdirs' q
    · exact hitems b hb

theorem writeItem_of_writable (h : Writable m (root.child a.path)) :
    ∃ m', writeItem root a (.memory m) = (.ok (), .memory m') := by
  obtain ⟨dir, hparent, hdir⟩ := h
  by_cases htext : dir.text = ""
  · have hask : Store.isDir dir (.memory m) = (.ok true, .memory m) := by
      rw [← hdir htext]
      rfl
    have hensure : ensureParent (root.child a.path) (.memory m) = (.ok (), .memory m) := by
      simp only [ensureParent, hparent]
      rw [bind_ok hask]
      rfl
    exact ⟨_, (bind_ok hensure).trans (writeText_of_isDir hparent (hdir htext) _)⟩
  · obtain ⟨m₁, hensure, hisDir⟩ := exists_of_ensureParent hparent htext m
    exact ⟨_, (bind_ok hensure).trans (writeText_of_isDir hparent hisDir _)⟩

theorem forM_of_writable {items : List Artifact}
    (h : ∀ a ∈ items, Writable m (root.child a.path)) :
    ∃ m', items.forM (writeItem root) (.memory m) = (.ok (), .memory m') ∧
      ∀ q, m.isDir q = true → m'.isDir q = true := by
  induction items generalizing m with
  | nil => exact ⟨m, rfl, fun _ => id⟩
  | cons a items ih =>
    obtain ⟨m₁, hfirst⟩ := writeItem_of_writable (h a List.mem_cons_self)
    obtain ⟨m₁', heq, _, hdirs⟩ := isDir_of_writeItem hfirst
    cases heq
    obtain ⟨m₂, hrest, hdirs'⟩ := ih fun b hb =>
      (h b (List.mem_cons_of_mem _ hb)).mono fun q _ => hdirs q
    exact ⟨m₂, (bind_ok hfirst).trans hrest, fun q => hdirs' q ∘ hdirs q⟩

/-! ## In place -/

/-- Whether artifacts and their manifest are in a store, as they are written. -/
structure InPlace (as : Artifacts) (manifestPath : Path) (m : Memory) : Prop where
  artifact : ∀ a ∈ as.items, PathMap.get? (as.root.child a.path) m.files = some (.text a.content)
  writable : ∀ a ∈ as.items, Writable m (as.root.child a.path)
  manifest : PathMap.get? manifestPath m.files = some (.text (as.manifest.toJson.pretty 0))
  around : ∃ dir, manifestPath.parent? = some dir ∧ m.isDir dir = true

theorem InPlace.of_content {manifestPath : Path} {m' : Memory} (h : InPlace as manifestPath m)
    (hfiles : m'.files = m.files) (hdirs : m'.dirs = m.dirs) : InPlace as manifestPath m' := by
  have hisDir := Memory.isDir_congr hdirs
  refine ⟨fun a ha => hfiles ▸ h.artifact a ha, fun a ha => ?_, hfiles ▸ h.manifest, hisDir ▸ h.around⟩
  exact (h.writable a ha).mono fun q _ hq => hisDir ▸ hq

theorem stale_self (current : Manifest) : current.stale current = [] := by
  simp [Manifest.stale]

/-- What is in place is written again without a change of any file. -/
theorem InPlace.writeFiles {manifestPath : Path} (h : InPlace as manifestPath m)
    (hapart : Apart as.root as.items) :
    ∃ m', Generator.writeFiles root manifestPath as.manifest as (.memory m)
        = (.ok ⟨as.items.map (·.path), []⟩, .memory m') ∧
      ∀ p, PathMap.get? p m'.files = PathMap.get? p m.files := by
  obtain ⟨m₁, hforM, hdirs⟩ := forM_of_writable h.writable
  obtain ⟨m₁', heq, hin, hout⟩ := files_of_forM_writeItem hapart hforM
  cases heq
  obtain ⟨dir, hparent, hdir⟩ := h.around
  have hcommit : as.commit (.memory m) = (.ok (as.items.map (·.path)), .memory m₁) := bind_ok hforM
  have hsave := writeText_of_isDir hparent (hdirs dir hdir) (as.manifest.toJson.pretty 0)
  refine ⟨m₁.setFile manifestPath (.text (as.manifest.toJson.pretty 0)), ?_, fun p => ?_⟩
  · have hstale : removeStale root (as.manifest.stale as.manifest) (.memory m₁)
        = (.ok [], .memory m₁) := by
      rw [stale_self]
      rfl
    exact (bind_ok (Task.wrapError_ok.2 hcommit)).trans <|
      (bind_ok (Task.wrapError_ok.2 hstale)).trans <| bind_ok (Task.wrapError_ok.2 hsave)
  · have hcommitted : PathMap.get? p m₁.files = PathMap.get? p m.files := by
      by_cases hp : ∃ a ∈ as.items, (as.root.child a.path).parts = p.parts
      · obtain ⟨a, ha, hparts⟩ := hp
        rw [← PathMap.get?_congr hparts, ← PathMap.get?_congr hparts, hin a ha, h.artifact a ha]
      · exact hout p fun a ha hparts => hp ⟨a, ha, hparts⟩
    rw [Memory.setFile, PathMap.get?_insert]
    split
    · rename_i hparts
      rw [← PathMap.get?_congr hparts, h.manifest]
    · exact hcommitted

end Artifacts

/-! ## What writing leaves -/

variable {File Dir : Path → Prop} {root : Path}

theorem confined_of_removeStale {entries deleted : List String} {s t : Store}
    (h : removeStale root entries s = (.ok deleted, t))
    (hfile : ∀ entry ∈ deleted, File (placeOf root entry))
    (hdir : ∀ entry ∈ deleted, ∀ dir ∈ (placeOf root entry).ancestors.tail,
      dir.isWithin root = true → dir.same root = false → Dir dir) :
    Confined File Dir s t := by
  induction entries generalizing s deleted with
  | nil =>
    cases h
    exact Std.Refl.refl _
  | cons entry entries ih =>
    rw [removeStale] at h
    obtain ⟨found, s₁, hask, h⟩ := exists_of_bind_ok h
    have hs₁ : Confined File Dir s s₁ := (confined_isFile _).arrives _ _ _ hask
    cases found with
    | false => exact Trans.trans hs₁ (ih h hfile hdir)
    | true =>
      obtain ⟨_, s₂, hremove, h⟩ := exists_of_bind_ok h
      obtain ⟨_, s₃, hprune, h⟩ := exists_of_bind_ok h
      obtain ⟨rest, s₄, hrest, h⟩ := exists_of_bind_ok h
      cases h
      have hs₂ : Confined File Dir s₁ s₂ :=
        (confined_remove (hfile entry List.mem_cons_self)).arrives _ _ _ hremove
      have hs₃ : Confined File Dir s₂ s₃ :=
        (confined_pruneDirs (hdir entry List.mem_cons_self)).arrives _ _ _ hprune
      exact Trans.trans hs₁ <| Trans.trans hs₂ <| Trans.trans hs₃ <|
        ih hrest (fun e he => hfile e (List.mem_cons_of_mem _ he))
          fun e he => hdir e (List.mem_cons_of_mem _ he)

namespace Generator
variable {manifestPath : Path} {previous : Manifest} {artifacts : Artifacts} {report : Report}

/-- The files that are touched once the artifacts are written. -/
def Cleared (root manifestPath : Path) (report : Report) (p : Path) : Prop :=
  (∃ entry ∈ report.deleted, p = placeOf root entry) ∨ p = manifestPath

/-- The directories that may be removed then. -/
def Emptied (root : Path) (report : Report) (dir : Path) : Prop :=
  ∃ entry ∈ report.deleted, dir.parts <+: (placeOf root entry).parts ∧
    dir.isWithin root = true ∧ dir.same root = false

/-- No directory around the root is removed. -/
theorem Emptied.parts_ne_nil {dir : Path} (h : Emptied root report dir) : dir.parts ≠ [] := by
  obtain ⟨_, _, _, hwithin, hsame⟩ := h
  intro hnil
  rw [Path.isWithin, hnil, List.isPrefixOf_iff_prefix, List.prefix_nil] at hwithin
  rw [Path.same, hnil, hwithin] at hsame
  cases hsame

theorem confined_of_reconcile {s s₁ t : Store} {text : String}
    (hfile : ∀ p, Cleared root manifestPath report p → File p)
    (hstale : removeStale root (previous.stale artifacts.manifest) s = (.ok report.deleted, s₁))
    (hsave : Store.writeText manifestPath text s₁ = (.ok (), t)) :
    Confined File (Emptied root report) s t := by
  have hremoved : Confined File (Emptied root report) s s₁ :=
    confined_of_removeStale hstale (fun entry he => hfile _ (.inl ⟨entry, he, rfl⟩))
      fun entry he dir hdir hwithin hsame =>
        ⟨entry, he, Path.parts_prefix_of_mem_outward hdir, hwithin, hsame⟩
  have hsaved : Confined File (Emptied root report) s₁ t :=
    (confined_writeText (hfile _ (.inr rfl)) text).arrives _ _ _ hsave
  exact Trans.trans hremoved hsaved

/-- What was written is in place afterwards, unless it was removed as stale. -/
theorem inPlace_of_writeFiles (hc : artifacts.Collected root) {m : Memory} {t : Store}
    (h : writeFiles root manifestPath previous artifacts (.memory m) = (.ok report, t))
    (hmanifest : ∀ entry ∈ report.written, (placeOf root entry).parts ≠ manifestPath.parts)
    (hown : ∀ entry ∈ report.deleted, ∀ other ∈ report.written,
      (placeOf root entry).parts ≠ (placeOf root other).parts) :
    ∃ m', t = .memory m' ∧ artifacts.InPlace manifestPath m' := by
  obtain ⟨s₁, s₂, hcommit, hstale, hsave⟩ := exists_of_writeFiles h
  obtain ⟨hforM, hwritten⟩ := Artifacts.commit_ok hcommit
  have hpath {a : Artifact} (ha : a ∈ artifacts.items) : a.path ∈ report.written :=
    hwritten ▸ List.mem_map_of_mem ha
  obtain ⟨m₁, rfl, hin, _⟩ := Artifacts.files_of_forM_writeItem hc.targets_apart hforM
  obtain ⟨m₁', heq, hwritable, _⟩ := Artifacts.writable_of_forM hforM
  cases heq
  have hconfined := confined_of_reconcile (fun _ => id) hstale hsave
  obtain ⟨m₂, rfl, _⟩ := get?_of_removeStale hstale
  obtain ⟨dir, hparent, hisDir, rfl⟩ := Artifacts.isDir_of_writeText hsave
  let places : Region := fun parts =>
    artifacts.items.any fun a => (placeOf root a.path).parts == parts
  have hplaces : ∀ p, Cleared root manifestPath report p → places p.parts = false := by
    intro p hp
    refine List.any_eq_false.2 fun a ha => ?_
    rcases hp with ⟨entry, he, rfl⟩ | rfl
    · simpa using (hown entry he a.path (hpath ha)).symm
    · simpa using hmanifest a.path (hpath ha)
  refine ⟨_, rfl, fun a ha => ?_, fun a ha => ?_, ?_, dir, hparent, hisDir⟩
  · obtain ⟨m', heq, hm'⟩ := hconfined.filesIn hplaces
    cases heq
    have hplace : places (artifacts.root.child a.path).parts = true :=
      List.any_eq_true.2 ⟨a, ha, by simp [hc.parts_target ha]⟩
    rw [Memory.get?_of_filesIn hm' hplace, hin a ha]
  · refine (hwritable a ha).mono fun q htext hq => ?_
    have hnil : q.parts = [] := by simp [Path.parts, htext, Path.partsOf, Text.split, Part.ofField?]
    obtain ⟨m', heq, hm'⟩ :=
      hconfined.isDir (fun d hd hparts => hd.parts_ne_nil (hparts.trans hnil)) hq
    cases heq
    exact hm'
  · exact PathMap.get?_insert_of_same rfl _ _

/-- The files that are touched in all. -/
def Touched (root manifestPath : Path) (report : Report) (p : Path) : Prop :=
  (∃ entry ∈ report.written ++ report.deleted, p.parts = (placeOf root entry).parts) ∨
    p = manifestPath

theorem confined_of_writeFiles (hc : artifacts.Collected root) {s t : Store}
    (h : writeFiles root manifestPath previous artifacts s = (.ok report, t)) :
    Confined (Touched root manifestPath report) (Emptied root report) s t := by
  obtain ⟨s₁, s₂, hcommit, hstale, hsave⟩ := exists_of_writeFiles h
  have hwritten := (Artifacts.commit_ok hcommit).2
  have hcommitted : Confined (Touched root manifestPath report) (Emptied root report) s s₁ := by
    refine (Artifacts.confined_commit fun a ha => ?_).arrives _ _ _ hcommit
    have hmem : a.path ∈ report.written := hwritten ▸ List.mem_map_of_mem ha
    exact .inl ⟨a.path, List.mem_append_left _ hmem, hc.parts_target ha⟩
  have hreconciled : Confined (Touched root manifestPath report) (Emptied root report) s₁ t := by
    refine confined_of_reconcile (fun p hp => ?_) hstale hsave
    rcases hp with ⟨entry, he, rfl⟩ | rfl
    · exact .inl ⟨entry, List.mem_append_right _ he, rfl⟩
    · exact .inr rfl
  exact Trans.trans hcommitted hreconciled

end Generator
end AgentDocs
