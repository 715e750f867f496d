import AgentDocs.Generate.Run
import AgentDocs.Proofs.Render.Calls
import Mathlib.Data.List.Sort

/-! # The stages of a run

Before anything is rendered, the templates are found and the targets that are known of them are
noted. Then each template is expanded: what is rendered for it is planned, its text is rendered, and
files are made of the text. -/
namespace AgentDocs
open Effect Store Session Template

/-- What is rendered for a template, and what is made of its text. -/
structure Plan where
  template : TemplateScope
  targetDir : Path
  finish : String → Generating Generator.Progress

def Plan.call (plan : Plan) (t : Template) : Call :=
  ⟨plan.template, t.source.path, plan.targetDir, some (String.ofList t.body)⟩

namespace Generator

def renderer (g : Generator) : Renderer :=
  (Renderer.make g.registry g.project.root).withImportsDir g.project.config.importsDir

/-- The parameters that the project and the caller give. -/
def overrides (g : Generator) : Parameters := g.project.config.parameters.update g.parameters

/-! ## Finding templates -/

/-- Whether a template may be expanded before another. -/
def NotAfter (t u : Template) : Prop := u.priority.precedes t.priority = false

instance (t u : Template) : Decidable (NotAfter t u) :=
  inferInstanceAs (Decidable (_ = false))

theorem notAfter_trans {t u v : Template} (htu : NotAfter t u) (huv : NotAfter u v) :
    NotAfter t v := by
  revert htu huv
  unfold NotAfter
  cases t.priority <;> cases u.priority <;> cases v.priority <;> simp [Priority.precedes]
  omega

theorem notAfter_total (t u : Template) : NotAfter t u ∨ NotAfter u t := by
  unfold NotAfter
  cases t.priority <;> cases u.priority <;> simp [Priority.precedes]
  omega

theorem orderedInsert_append {α : Type} {r : α → α → Prop} [DecidableRel r] {a : α} {l m : List α}
    (hl : ∀ b ∈ l, ¬r a b) (hm : ∀ b ∈ m, r a b) :
    (l ++ m).orderedInsert r a = l ++ a :: m := by
  induction l with
  | nil =>
    cases m with
    | nil => rfl
    | cons b m => exact List.orderedInsert_cons_of_le r m (hm b List.mem_cons_self)
  | cons b l ih =>
    rw [List.cons_append, List.orderedInsert_of_not_le r _ (hl b List.mem_cons_self),
      ih fun c hc => hl c (List.mem_cons_of_mem _ hc)]
    rfl

/-- Templates are put in order one by one, from the last path to the first: each goes in front of
all that it need not come after. -/
theorem inOrder_eq (templates : List Template) :
    inOrder templates = templates.insertionSort NotAfter := by
  have htrans : ∀ t u v : Template, (!u.priority.precedes t.priority) = true →
      (!v.priority.precedes u.priority) = true → (!v.priority.precedes t.priority) = true := by
    intro t u v
    simpa [NotAfter] using notAfter_trans (t := t) (u := u) (v := v)
  have htotal : ∀ t u : Template,
      (!u.priority.precedes t.priority || !t.priority.precedes u.priority) = true := by
    intro t u
    simpa [NotAfter] using notAfter_total t u
  induction templates with
  | nil => exact List.mergeSort_nil
  | cons t templates ih =>
    obtain ⟨l, m, hall, hrest, hbefore⟩ := List.mergeSort_cons htrans htotal t templates
    have hsorted := List.pairwise_mergeSort htrans htotal (t :: templates)
    rw [hall] at hsorted
    have hbehind := (List.pairwise_cons.1 (List.pairwise_append.1 hsorted).2.1).1
    rw [List.insertionSort_cons, ← ih, inOrder, inOrder, hall, hrest, orderedInsert_append]
    · intro u hu
      simpa [NotAfter] using hbefore u hu
    · intro u hu
      simpa [NotAfter] using hbehind u hu

/-- All that happens before the first template is expanded, if templates are put in an order. -/
def approachBy (order : List Template → List Template) (g : Generator) :
    Generating (Manifest × List Template) := do
  let sourceDir := g.project.sourceDir
  if !(← Within.access .ofStore (Store.isDir sourceDir)) then throw (.missingSourceDir sourceDir)
  let previous ← Within.onStore (Manifest.load g.manifestPath)
  let templates := order (← Within.onStore (discover g.project))
  modify fun s => s.withTargets (templates.filterMap (knownTarget? g.project))
  return (previous, templates)

def approach (g : Generator) : Generating (Manifest × List Template) := approachBy inOrder g

theorem approach_eq (g : Generator) :
    approach g = approachBy (List.insertionSort NotAfter) g := by
  rw [approach, funext inOrder_eq]

/-! ## Expanding a template -/

def finishDirectives (g : Generator) (t : Template) (spec : Spec) (done : Progress)
    (body : String) : Generating Progress := do
  let relative := t.source.relative
  let content ← Within.onStore
    ((spec.content g.project.root g.classes body).wrapError (.ofTemplate relative))
  let outputs ← orFail ((spec.outputs g.project.docsBase content).mapError (.ofTemplate relative))
  outputs.foldlM (addOutput relative) done

def planDirectives (g : Generator) (t : Template) (spec : Spec) (parameters : Parameters)
    (done : Progress) : Generating Plan := do
  let listed ← orFail (listedDocs g.project spec t.source.relative done.docs)
  return ⟨⟨t.source, parameters, listed, !spec.literal⟩,
    spec.linkDir g.project.root g.project.docsBase, finishDirectives g t spec done⟩

def finishHeaders (t : Template) (targets : List Path)
    (commands : Option (Path × List HeaderCommand)) (done : Progress) (body : String) :
    Generating Progress := do
  let artifacts ← (headerFiles targets commands body).foldlM
    (fun (as : Artifacts) (target, content) => orFail (as.insert t.source.relative target content))
    done.artifacts
  return { done with artifacts }

def planHeaders (g : Generator) (t : Template) (headers : List Markup.Header)
    (parameters : Parameters) (done : Progress) : Generating Plan := do
  let root := g.project.root
  let targets ← Within.onStore
    ((headerTargets root headers).wrapError (.ofTemplate t.source.relative))
  let commands ← orFail (commandsFor g.project t headers)
  let targetDir := ((targets.head?.bind Path.parent?).orElse fun _ => commands.map (·.1)).getD root
  return ⟨⟨t.source, parameters, none, true⟩, targetDir, finishHeaders t targets commands done⟩

def plan (g : Generator) (done : Progress) (t : Template) : Generating Plan := do
  let sourceDir := g.project.sourceDir
  let dir := t.source.path.parent?.getD sourceDir
  let parameters ← Within.onStore (Parameters.load sourceDir dir g.overrides)
  match t.kind with
  | .directives spec => planDirectives g t spec parameters done
  | .headers headers => planHeaders g t headers parameters done

/-- Renders what is planned. -/
def renderPlan (g : Generator) (t : Template) (plan : Plan) : Generating String :=
  Within.wrapError (.ofRender t.source.relative) (g.renderer.call (plan.call t))

theorem expand_eq (g : Generator) (done : Progress) (t : Template) :
    expand g g.renderer g.overrides done t = (do
      let plan ← plan g done t
      plan.finish (← renderPlan g t plan)) := by
  unfold expand plan
  dsimp only
  rw [bind_assoc]
  refine congrArg _ (funext fun parameters => ?_)
  cases t.kind with
  | directives spec =>
    unfold expandDirectives planDirectives
    simp only [bind_assoc, pure_bind]
    rfl
  | headers headers =>
    unfold expandHeaders planHeaders
    simp only [bind_assoc, pure_bind]
    rfl

theorem gather_eq (g : Generator) :
    gather g = (do
      let found ← approach g
      let done ← found.2.foldlM (expand g g.renderer g.overrides) ⟨.empty g.project.root, []⟩
      checkReferences
      return (found.1, ← addImported done.artifacts)) := by
  unfold gather approach approachBy collectArtifacts
  simp only [bind_assoc]
  refine congrArg _ (funext fun found => ?_)
  cases found
  · rfl
  · simp only [Bool.not_true, Bool.false_eq_true, if_false, bind_assoc, pure_bind]
    rfl

/-! ## The check -/

/-- The check passes, or fails with the first mention of a name that is not known. -/
theorem checkReferences_cases (u : Session) :
    (checkReferences u = (.ok (), u) ∧ ∀ m ∈ u.references.mentions, u.references.isKnown m = true) ∨
      ∃ earlier m later, u.references.mentions = earlier ++ m :: later ∧
        checkReferences u = (.error (.unknownReference m), u) ∧
        u.references.isKnown m = false ∧ ∀ m' ∈ earlier, u.references.isKnown m' = true := by
  have hget : (get : Generating Session) u = (.ok u, u) := rfl
  cases hunknown : u.references.unknown? with
  | none =>
    have hcheck : checkReferences u = (.ok (), u) := by
      rw [checkReferences, bind_ok hget, hunknown]
      rfl
    refine .inl ⟨hcheck, fun m hm => ?_⟩
    simpa using List.find?_eq_none.1 hunknown m hm
  | some m =>
    have hcheck : checkReferences u = (.error (.unknownReference m), u) := by
      rw [checkReferences, bind_ok hget, hunknown]
      rfl
    obtain ⟨hm, earlier, later, hmentions, hearlier⟩ := List.find?_eq_some_iff_append.1 hunknown
    refine .inr ⟨earlier, m, later, hmentions, hcheck, by simpa using hm, fun m' hm' => ?_⟩
    simpa using hearlier m' hm'

end Generator
end AgentDocs
