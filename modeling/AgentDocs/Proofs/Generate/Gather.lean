import AgentDocs.Generate.Run
import AgentDocs.Proofs.Project.Parameters
import AgentDocs.Proofs.Render.Steady

/-! # Gathering writes nothing

All that a run does before it writes files leaves the store as it was: parameters, templates and
the manifest are read, renderings are quiet, and artifacts, mentions and imported files are kept in
memory. Afterwards only the store can make the run fail. -/
namespace AgentDocs
open Effect Store Session

/-! ## Reading -/

theorem Manifest.moves_load (path : Path) : Moves SameContent (Manifest.load path) := by
  refine (Task.moves_wrapError (moves_isFile path)).bind fun found => ?_
  split
  · exact (Task.moves_wrapError (moves_readText path)).bind fun text => moves_mk _
  · exact moves_pure _

namespace Template

theorem moves_classExample (classes : ClassIndex) (entry : ExampleEntry) (name : String) :
    Moves SameContent (classExample classes entry name) := by
  refine (moves_mk _).bind fun path => ?_
  refine (Task.moves_wrapError (moves_readText path)).bind fun text => ?_
  exact (moves_mk _).bind fun _ => moves_pure _

theorem moves_fileExample (root : Path) (entry : ExampleEntry) (reference : String) :
    Moves SameContent (fileExample root entry reference) := by
  refine (Task.moves_wrapError (moves_isFile _)).bind fun found => ?_
  split
  · exact (Task.moves_wrapError (moves_readText _)).bind fun text => moves_mk _
  · exact moves_throw _

theorem moves_exampleBlock (root : Path) (classes : ClassIndex) (entry : ExampleEntry) :
    Moves SameContent (exampleBlock root classes entry) := by
  unfold exampleBlock
  split
  · exact moves_classExample classes entry _
  · exact moves_fileExample root entry _

theorem moves_content (spec : Spec) (root : Path) (classes : ClassIndex) (body : String) :
    Moves SameContent (spec.content root classes body) := by
  refine (moves_mk _).bind fun text => ?_
  unfold withExamples
  split
  · exact moves_pure _
  · refine Moves.bind ?_ fun _ => moves_pure _
    exact (moves_mapM (moves_exampleBlock root classes) _).bind fun _ => moves_pure _

theorem moves_targetsOf (root : Path) (value : String) :
    Moves SameContent (targetsOf root value) := by
  unfold targetsOf
  dsimp only
  split
  · exact moves_pure _
  · refine (Task.moves_wrapError (moves_isDir _)).bind fun found => ?_
    split
    · exact (Task.moves_wrapError (moves_listDirs _ _)).bind fun _ => moves_pure _
    · exact moves_pure _

theorem moves_headerTargets (root : Path) (headers : List Markup.Header) :
    Moves SameContent (headerTargets root headers) :=
  (moves_mapM (moves_targetsOf root) _).bind fun _ => moves_pure _

end Template

/-! ## Expanding templates -/

namespace Generator
open Template

theorem moves_orFail {α : Type} (result : Except GenerateError α) :
    Moves Steady (orFail result) := moves_mk _

theorem moves_readTemplate (root p : Path) : Moves SameContent (readTemplate root p) := by
  unfold readTemplate
  split
  · exact moves_throw _
  · exact (Task.moves_wrapError (moves_readText p)).bind fun text => moves_mk _

theorem moves_discover (project : Project) : Moves SameContent (discover project) :=
  (Task.moves_wrapError (moves_listFiles _ _)).bind fun _ =>
    moves_mapM (moves_readTemplate project.root) _

theorem moves_declare (origin : String) (docs : DocsIndex) (kind : OutputKind) :
    Moves Steady (declare origin docs kind) := by
  cases kind with
  | skill name => exact Within.moves_modify_pure (fun _ => by exact steady_of_eq rfl rfl rfl rfl) _
  | doc doc =>
    refine (moves_orFail _).bind fun docs => ?_
    exact Within.moves_modify_pure (fun _ => by exact steady_of_eq rfl rfl rfl rfl) _
  | command | plain => exact moves_pure _

theorem moves_addOutput (origin : String) (done : Progress) (output : Output) :
    Moves Steady (addOutput origin done output) :=
  (moves_declare _ _ _).bind fun _ => (moves_orFail _).bind fun _ => moves_pure _

theorem moves_renderBody (renderer : Renderer) (t : Template) (template : TemplateScope)
    (targetDir : Path) : Moves Steady (renderBody renderer t template targetDir) :=
  Within.moves_wrapError (Renderer.moves_render _ _ _ _)

theorem moves_expandDirectives (g : Generator) (renderer : Renderer) (t : Template) (spec : Spec)
    (parameters : Parameters) (done : Progress) :
    Moves Steady (expandDirectives g renderer t spec parameters done) := by
  refine (moves_orFail _).bind fun listed => ?_
  refine (moves_renderBody _ _ _ _).bind fun body => ?_
  refine (Within.moves_onStore (Task.moves_wrapError (moves_content _ _ _ _))).bind
    fun content => ?_
  exact (moves_orFail _).bind fun outputs => moves_foldlM (moves_addOutput _) _ _

theorem moves_expandHeaders (g : Generator) (renderer : Renderer) (t : Template)
    (headers : List Markup.Header) (parameters : Parameters) (done : Progress) :
    Moves Steady (expandHeaders g renderer t headers parameters done) := by
  refine (Within.moves_onStore (Task.moves_wrapError (moves_headerTargets _ _))).bind
    fun targets => ?_
  refine (moves_orFail _).bind fun commands => ?_
  refine (moves_renderBody _ _ _ _).bind fun body => ?_
  exact Moves.bind (moves_foldlM (fun _ _ => moves_orFail _) _ _) fun _ => moves_pure _

theorem moves_expand (g : Generator) (renderer : Renderer) (overrides : Parameters)
    (done : Progress) (t : Template) : Moves Steady (expand g renderer overrides done t) := by
  refine (Within.moves_onStore (Parameters.moves_load _ _ _)).bind fun parameters => ?_
  split
  · exact moves_expandDirectives _ _ _ _ _ _
  · exact moves_expandHeaders _ _ _ _ _ _

theorem moves_checkReferences : Moves Steady checkReferences := by
  refine moves_get.bind fun s => ?_
  split
  · exact moves_throw _
  · exact moves_pure _

theorem moves_addImported (artifacts : Artifacts) : Moves Steady (addImported artifacts) :=
  moves_get.bind fun _ => moves_foldlM (fun _ _ => moves_orFail _) _ _

theorem moves_collectArtifacts (g : Generator) : Moves Steady (collectArtifacts g) := by
  refine (Within.moves_onStore (moves_discover _)).bind fun templates => ?_
  refine Moves.bind (Within.moves_modify fun _ => steady_of_eq rfl rfl rfl rfl) fun _ => ?_
  refine (moves_foldlM (moves_expand _ _ _) _ _).bind fun done => ?_
  exact moves_checkReferences.bind fun _ => moves_addImported _

theorem moves_gather (g : Generator) : Moves Steady (gather g) := by
  have hrest : Moves Steady (do
      let previous ← Within.onStore (Manifest.load g.manifestPath)
      return (previous, ← collectArtifacts g) : Generating (Manifest × Artifacts)) :=
    (Within.moves_onStore (Manifest.moves_load _)).bind fun previous =>
      (moves_collectArtifacts g).bind fun _ => moves_pure _
  refine (Within.moves_access (moves_isDir _)).bind fun found => ?_
  split
  · exact Moves.bind (moves_throw _) fun _ => hrest
  · exact hrest

/-! ## Failing -/

theorem ofStore_of_wrapError {α : Type} {access : Store.Access α} {e : GenerateError}
    {s t : Store} (h : access.wrapError GenerateError.ofStore s = (.error e, t)) :
    ∃ f, e = .ofStore f := by
  have he : (access s).1.mapError .ofStore = .error e := congrArg Prod.fst h
  cases hr : (access s).1 with
  | ok a =>
    rw [hr] at he
    cases he
  | error f =>
    rw [hr] at he
    cases he
    exact ⟨f, rfl⟩

/-- Writing files fails only by an error of the store. -/
theorem writeFiles_error {root manifestPath : Path} {previous : Manifest} {artifacts : Artifacts}
    {e : GenerateError} {s t : Store}
    (h : writeFiles root manifestPath previous artifacts s = (.error e, t)) :
    ∃ f, e = .ofStore f := by
  rcases of_bind_error h with h | ⟨written, s₁, _, h⟩
  · exact ofStore_of_wrapError h
  rcases of_bind_error h with h | ⟨deleted, s₂, _, h⟩
  · exact ofStore_of_wrapError h
  rcases of_bind_error h with h | ⟨_, s₃, _, h⟩
  · exact ofStore_of_wrapError h
  · cases h

/-- A run that fails for a reason other than the store, or before it writes files, leaves all
files and directories as they were, the manifest of the run before among them. -/
theorem run_error_keeps_files (g : Generator) (m : Memory) (e : GenerateError)
    (h : (g.run (.memory m)).1 = .error e)
    (hearly : (∀ f, e ≠ .ofStore f) ∨ ∃ e', (g.gather (start (.memory m))).1 = .error e') :
    ∃ m', (g.run (.memory m)).2.1 = .memory m' ∧ m'.files = m.files ∧ m'.dirs = m.dirs := by
  have hs : SameContent (.memory m) (g.gather (start (.memory m))).2.store :=
    (moves_gather g (start (.memory m))).store
  cases hg : g.gather (start (.memory m)) with
  | mk result s =>
    rw [hg] at hs hearly
    cases result with
    | error e' =>
      have hrun : g.runIn (start (.memory m)) = (.error e', s) := bind_error hg
      rw [show (g.run (.memory m)).2.1 = s.store from congrArg (·.2.store) hrun]
      exact hs.memory
    | ok made =>
      obtain hearly | ⟨e', he'⟩ := hearly
      · have hrun := bind_ok (f := fun made => Within.onStore
          (writeFiles g.project.root g.manifestPath made.1 made.2)) hg
        have hw : (writeFiles g.project.root g.manifestPath made.1 made.2 s.store).1 = .error e :=
          (congrArg (·.1) hrun).symm.trans h
        obtain ⟨f, hf⟩ := writeFiles_error (Prod.ext hw rfl)
        exact absurd hf (hearly f)
      · cases he'

/-- A file of an earlier run, its manifest, and a template that mentions a skill there is not. -/
def strayMention : Memory :=
  ((Memory.empty.put ⟨"/work/OLD.md"⟩ (.text "old\n")).put
      ⟨"/work/docs-src/.docgen-metadata.json"⟩ (.text "\x7b\"files\":[\"OLD.md\"]\x7d")).put
    ⟨"/work/docs-src/guide.md"⟩
    (.text "---\ntarget: GUIDE.md\n---\nUse \x7b\x7bskill-reference: deploy\x7d\x7d.")

theorem stray_mention_keeps_files :
    ((make (.standard ⟨"/work"⟩) .empty).run (.memory strayMention)).1
        = .error (.unknownReference ⟨"docs-src/guide.md", .skill, "deploy"⟩) ∧
      ∃ m', ((make (.standard ⟨"/work"⟩) .empty).run (.memory strayMention)).2.1 = .memory m' ∧
        m'.files = strayMention.files ∧ m'.dirs = strayMention.dirs := by
  have h : ((make (.standard ⟨"/work"⟩) .empty).run (.memory strayMention)).1
      = .error (.unknownReference ⟨"docs-src/guide.md", .skill, "deploy"⟩) := by
    decide +kernel
  exact ⟨h, run_error_keeps_files _ _ _ h (.inl fun _ he => by cases he)⟩

end Generator
end AgentDocs
