import AgentDocs.Proofs.Generate.Insertions
import AgentDocs.Proofs.Generate.Outcome
import AgentDocs.Proofs.Generate.Rewriting

/-! # Manifests that are saved

Whatever templates claim, the manifest of their files can be saved wherever there is a directory for
it, and every later run finds the files in it that were saved. -/
namespace AgentDocs.Artifacts
open Effect Store

/-- A manifest of artifacts is loaded as it was saved, as long as its own file stays. -/
theorem load_manifest_saved (root : Path) (made : List Insertion) {path dir : Path} {m : Memory}
    (hparent : path.parent? = some dir) (hdir : m.isDir dir = true) :
    ∃ m', (after root made).manifest.save path (.memory m) = (.ok (), .memory m') ∧
      (Manifest.load path (.memory m')).1 = .ok (after root made).manifest ∧
      ∀ later : Memory, later.content? path = m'.content? path →
        (Manifest.load path (.memory later)).1 = .ok (after root made).manifest := by
  have hsound := (collected_after root made).sound
  have hwrite := writeText_of_isDir hparent hdir ((after root made).manifest.toJson.pretty 0)
  obtain ⟨m', heq, hfiles⟩ := files_of_writeText hwrite
  have hstored : m'.content? path
      = .ok (.text ((after root made).manifest.toJson.pretty 0)) := by
    rw [content?_eq_ok_iff, hfiles, PathMap.get?_insert_of_same rfl]
  have hload : ∀ later : Memory, later.content? path = m'.content? path →
      (Manifest.load path (.memory later)).1 = .ok (after root made).manifest := by
    intro later hlater
    exact Manifest.load_saved hsound (content?_eq_ok_iff.1 (hlater.trans hstored))
  refine ⟨m', ?_, hload m' rfl, hload⟩
  rw [Manifest.save, Task.wrapError_ok, hwrite, heq]

/-- Claims for a relative root, one of them refused, with a quote, a backslash, a line feed and a
character that is no letter in their targets. -/
def quotedTargets : List Insertion :=
  [⟨"a.md", ⟨"x/\"y\\.md"⟩, "A"⟩, ⟨"b.md", ⟨"../../z"⟩, "B"⟩, ⟨"b.md", ⟨"./\n\u0001/é.md"⟩, "C"⟩]

def sourceDir : Memory := Memory.empty.put ⟨"/work/docs-src/a.md"⟩ (.text "A")

theorem load_quoted_targets_saved :
    (after ⟨"base"⟩ quotedTargets).manifest = ⟨["\n\u0001/é.md", "x/\"y\\.md"]⟩ ∧
      (Path.mk "/work/docs-src/.docgen-metadata.json").parent? = some ⟨"/work/docs-src"⟩ ∧
      sourceDir.isDir ⟨"/work/docs-src"⟩ = true ∧
      ∃ m', (after ⟨"base"⟩ quotedTargets).manifest.save ⟨"/work/docs-src/.docgen-metadata.json"⟩
          (.memory sourceDir) = (.ok (), .memory m') ∧
        (Manifest.load ⟨"/work/docs-src/.docgen-metadata.json"⟩ (.memory m')).1
          = .ok (after ⟨"base"⟩ quotedTargets).manifest := by
  refine ⟨by decide +kernel, by decide +kernel, by decide +kernel, ?_⟩
  obtain ⟨m', hsave, hload, _⟩ :=
    @load_manifest_saved ⟨"base"⟩ quotedTargets ⟨"/work/docs-src/.docgen-metadata.json"⟩
      ⟨"/work/docs-src"⟩ sourceDir (by decide +kernel) (by decide +kernel)
  exact ⟨m', hsave, hload⟩

end AgentDocs.Artifacts
