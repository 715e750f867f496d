import AgentDocs.Proofs.Generate.Outcome
import AgentDocs.Proofs.Path.Absolute
import AgentDocs.Proofs.Path.Inside

/-! # Artifacts and the manifest of the run before

In memory, writing the artifacts and removing what is stale always succeeds. An artifact survives
exactly if the manifest of the run before spells its place as this run does: an entry with another
spelling is stale by its text, and leads to the artifact by its place. -/
namespace AgentDocs
open Effect Store

/-! ## Nothing fails in memory -/

namespace Artifacts

theorem exists_of_ensureParent {p dir : Path} (hdir : p.parent? = some dir) (htext : dir.text ≠ "")
    (m : Memory) :
    ∃ m', ensureParent p (.memory m) = (.ok (), .memory m') ∧ m'.isDir dir = true := by
  have hask : Store.isDir dir (.memory m) = (.ok (m.isDir dir), .memory m) := rfl
  simp only [ensureParent, hdir]
  rw [bind_ok hask]
  cases hd : m.isDir dir with
  | true => exact ⟨m, rfl, hd⟩
  | false =>
    have hcreate : Store.createDirs dir (.memory m) = (.ok (), .memory (m.addDirs dir)) := by
      simp only [createDirs, change, Memory.createDir, Bool.true_or, if_true]
      cases dir.parent? <;> rfl
    exact ⟨m.addDirs dir, hcreate, Memory.isDir_addDirs_self m htext⟩

theorem exists_of_writeItem {root : Path} {a : Artifact}
    (habs : (root.child a.path).isAbsolute = true) (hbelow : Path.Inside root (root.child a.path))
    (m : Memory) : ∃ m', writeItem root a (.memory m) = (.ok (), .memory m') := by
  obtain ⟨names, hn, hne, hparts⟩ := hbelow
  obtain ⟨name, rest, rfl⟩ := List.exists_cons_of_ne_nil hne
  have hmem : name ∈ (root.child a.path).parts :=
    hparts ▸ List.mem_append_right _ List.mem_cons_self
  obtain ⟨dir, hdir⟩ := Path.exists_parent? hmem (hn name List.mem_cons_self).1
  have htext : dir.text ≠ "" := by
    intro he
    have := Path.isAbsolute_parent? habs hdir
    simp [Path.isAbsolute, he] at this
  obtain ⟨m₁, hparent, hisDir⟩ := exists_of_ensureParent hdir htext m
  refine ⟨m₁.setFile (root.child a.path) (.text a.content), ?_⟩
  rw [writeItem, bind_ok hparent]
  simp only [writeText, write, change, Memory.write, hdir, hisDir, if_true]

theorem exists_of_commit {root : Path} {as : Artifacts} (h : Collected root as)
    (habs : root.isAbsolute = true) (m : Memory) :
    ∃ m', as.commit (.memory m) = (.ok (as.items.map (·.path)), .memory m') := by
  have hforM : ∀ (items : List Artifact) (m : Memory), (∀ a ∈ items, a ∈ as.items) →
      ∃ m', items.forM (writeItem as.root) (.memory m) = (.ok (), .memory m') := by
    intro items
    induction items with
    | nil => exact fun m _ => ⟨m, rfl⟩
    | cons a items ih =>
      intro m hitems
      obtain ⟨names, hn, hne, hpath⟩ := h.below a (hitems a List.mem_cons_self)
      have hroot : as.root.isAbsolute = true := h.root_eq ▸ Path.isAbsolute_normal habs
      obtain ⟨m₁, hm₁⟩ := exists_of_writeItem (a := a) (Path.isAbsolute_join hroot)
        (hpath ▸ Path.inside_child_slashed as.root hn hne) m
      obtain ⟨m₂, hm₂⟩ := ih m₁ fun b hb => hitems b (List.mem_cons_of_mem _ hb)
      exact ⟨m₂, (bind_ok hm₁).trans hm₂⟩
  obtain ⟨m', hm'⟩ := hforM as.items m fun _ => id
  exact ⟨m', bind_ok hm'⟩

end Artifacts

theorem exists_of_removeStale (root : Path) (entries : List String) (m : Memory) :
    ∃ deleted m', removeStale root entries (.memory m) = (.ok deleted, .memory m') := by
  induction entries generalizing m with
  | nil => exact ⟨[], m, rfl⟩
  | cons entry entries ih =>
    cases hfile : m.isFile (placeOf root entry) with
    | false =>
      rw [removeStale_of_not_isFile hfile]
      exact ih m
    | true =>
      obtain ⟨m₁, hm₁⟩ := exists_of_pruneDirs root (placeOf root entry).ancestors.tail
        { m with files := PathMap.erase (placeOf root entry) m.files }
      obtain ⟨deleted, m₂, hm₂⟩ := ih m₁
      rw [removeStale_of_isFile hfile hm₁, hm₂]
      exact ⟨entry :: deleted, m₂, rfl⟩

/-! ## What survives -/

/-- Whether every entry that leads to the place of an artifact is the path of the artifact. -/
def Manifest.SpellsAlike (root : Path) (previous : Manifest) (a : Artifact) : Prop :=
  ∀ entry ∈ previous.files, (placeOf root entry).same (placeOf root a.path) = true → entry = a.path

/-- An entry that leads to the place of an artifact under another spelling is stale. -/
theorem not_spellsAlike_iff {root : Path} {previous : Manifest} {artifacts : Artifacts}
    (hc : artifacts.Collected root) {a : Artifact} (ha : a ∈ artifacts.items) :
    ¬previous.SpellsAlike root a ↔
      ∃ entry ∈ previous.stale artifacts.manifest,
        (placeOf root entry).parts = (placeOf root a.path).parts := by
  have hcurrent : ∀ entry ∈ artifacts.manifest.files,
      (placeOf root entry).parts = (placeOf root a.path).parts → entry = a.path := by
    intro entry he hparts
    obtain ⟨b, hb, rfl⟩ := List.mem_map.1 he
    exact placeOf_injective (hc.below b hb) (hc.below a ha) hparts
  constructor
  · intro h
    simp only [Manifest.SpellsAlike, not_forall] at h
    obtain ⟨entry, he, hsame, hne⟩ := h
    have hparts := Path.same_iff.1 hsame
    exact ⟨entry, Manifest.mem_stale.2 ⟨he, fun hmem => hne (hcurrent entry hmem hparts)⟩, hparts⟩
  · rintro ⟨entry, he, hparts⟩ h
    obtain ⟨hprevious, hnew⟩ := Manifest.mem_stale.1 he
    rw [h entry hprevious (Path.same_iff.2 hparts)] at hnew
    exact hnew (List.mem_map_of_mem ha)

/-- After a run has written its artifacts and removed what is stale, an artifact is a file with its
content exactly if the manifest of the run before spells its place alike; otherwise it is gone. -/
theorem artifacts_after_removeStale {root : Path} (habs : root.isAbsolute = true)
    (previous : Manifest) {artifacts : Artifacts} (hc : artifacts.Collected root) (m : Memory) :
    ∃ m₁ deleted m₂,
      artifacts.commit (.memory m) = (.ok (artifacts.items.map (·.path)), .memory m₁) ∧
      removeStale root (previous.stale artifacts.manifest) (.memory m₁)
        = (.ok deleted, .memory m₂) ∧
      ∀ a ∈ artifacts.items,
        (m₂.content? (placeOf root a.path) = .ok (.text a.content) ↔
          previous.SpellsAlike root a) ∧
        (¬previous.SpellsAlike root a → m₂.isFile (placeOf root a.path) = false) := by
  obtain ⟨m₁, hcommit⟩ := Artifacts.exists_of_commit hc habs m
  obtain ⟨deleted, m₂, hremove⟩ :=
    exists_of_removeStale root (previous.stale artifacts.manifest) m₁
  refine ⟨m₁, deleted, m₂, hcommit, hremove, fun a ha => ?_⟩
  obtain ⟨m₁', hm₁', hin, _⟩ :=
    Artifacts.files_of_forM_writeItem (hc.apart habs) (Artifacts.commit_ok hcommit).1
  obtain rfl : m₁ = m₁' := by
    cases hm₁'
    rfl
  obtain ⟨m₂', hm₂', hgone, hkept⟩ := get?_of_removeStale hremove
  obtain rfl : m₂ = m₂' := by
    cases hm₂'
    rfl
  have hwritten : PathMap.get? (placeOf root a.path) m₁.files = some (.text a.content) := by
    rw [← PathMap.get?_congr (hc.parts_child habs ha)]
    exact hin a ha
  have hlost : ¬previous.SpellsAlike root a →
      PathMap.get? (placeOf root a.path) m₂.files = none :=
    fun h => hgone _ ((not_spellsAlike_iff hc ha).1 h)
  refine ⟨⟨fun hcontent => ?_, fun halike => ?_⟩, fun h => ?_⟩
  · by_contra h
    rw [content?_eq_ok_iff, hlost h] at hcontent
    cases hcontent
  · rw [content?_eq_ok_iff, hkept _ fun entry he hparts => ?_, hwritten]
    exact (not_spellsAlike_iff hc ha).2 ⟨entry, he, hparts⟩ halike
  · rw [Memory.isFile, PathMap.has, hlost h]
    rfl

/-- One artifact. -/
def oneArtifact : Artifacts := ⟨⟨"/work"⟩, [⟨"a.md", "Body\n", "docs-src/a.md"⟩]⟩

theorem collected_oneArtifact : oneArtifact.Collected ⟨"/work"⟩ where
  root_eq := by decide +kernel
  below a ha := by
    rw [List.mem_singleton.1 ha]
    refine ⟨[.name "a.md"], fun p hp => ?_, List.cons_ne_nil _ _, by decide +kernel⟩
    rw [List.mem_singleton.1 hp]
    exact ⟨rfl, by simp [Part.Proper]⟩
  sorted := List.pairwise_singleton _ _

/-- Entries for the artifact and for a file of which it is not known. -/
theorem one_artifact_after_removeStale :
    ∃ m₁ deleted m₂,
      oneArtifact.commit (.memory .empty) = (.ok ["a.md"], .memory m₁) ∧
      removeStale ⟨"/work"⟩ ((Manifest.mk ["a.md", "b.md"]).stale oneArtifact.manifest) (.memory m₁)
        = (.ok deleted, .memory m₂) ∧
      ∀ a ∈ oneArtifact.items,
        (m₂.content? (placeOf ⟨"/work"⟩ a.path) = .ok (.text a.content) ↔
          (Manifest.mk ["a.md", "b.md"]).SpellsAlike ⟨"/work"⟩ a) ∧
        (¬(Manifest.mk ["a.md", "b.md"]).SpellsAlike ⟨"/work"⟩ a →
          m₂.isFile (placeOf ⟨"/work"⟩ a.path) = false) :=
  artifacts_after_removeStale (by decide +kernel) _ collected_oneArtifact _

/-- A manifest is accepted with an entry that begins with `./`, and what was just written at its
place is removed. -/
theorem dotted_entry_removes_artifact :
    Manifest.ofText "\x7b\"files\":[\"./a.md\"]\x7d" = .ok ⟨["./a.md"]⟩ ∧
      (oneArtifact.commit (.memory .empty)).1 = .ok ["a.md"] ∧
      (Store.isFile ⟨"/work/a.md"⟩ (oneArtifact.commit (.memory .empty)).2).1 = .ok true ∧
      (removeStale ⟨"/work"⟩ ((Manifest.mk ["./a.md"]).stale oneArtifact.manifest)
        (oneArtifact.commit (.memory .empty)).2).1 = .ok ["./a.md"] ∧
      (Store.isFile ⟨"/work/a.md"⟩ (removeStale ⟨"/work"⟩
        ((Manifest.mk ["./a.md"]).stale oneArtifact.manifest)
        (oneArtifact.commit (.memory .empty)).2).2).1 = .ok false := by
  decide +kernel

end AgentDocs
