import AgentDocs.Proofs.Generate.Gather
import AgentDocs.Proofs.Generate.Stages
import AgentDocs.Proofs.Generate.Targets
import AgentDocs.Proofs.Render.Twins

/-! # Templates on two stores

Two stores have the same files in a region. A template is found, planned, rendered and made into
files alike in both, if the files that count for it are in the region and its `*` stand for the same
directories. -/
namespace AgentDocs
open Effect Store Session Template

variable {m m' : Memory} {K : Region}

namespace Template

/-- The file from which an example is read, if it is known. -/
def ExampleEntry.file? (root : Path) (classes : ClassIndex) (entry : ExampleEntry) : Option Path :=
  match entry.source with
  | .className name => (classes.sourceFile name).toOption
  | .file reference => some (root.within reference)

/-- The files from which the examples of a template are read. -/
def exampleFiles (root : Path) (classes : ClassIndex) (t : Template) : List Path :=
  match t.kind with
  | .directives spec => spec.examples.filterMap (ExampleEntry.file? root classes)
  | .headers _ => []

/-- The files for which the targets in the headers of a template stand in a store. -/
def spread (root : Path) (t : Template) (store : Store) : Except Fault (List Path) :=
  match t.kind with
  | .directives _ => .ok []
  | .headers headers => (headerTargets root headers store).1

section Examples
variable (hK : m'.filesIn K = m.filesIn K)
include hK

theorem mirrors_exampleBlock {root : Path} {classes : ClassIndex} {entry : ExampleEntry}
    (hfile : ∀ p, entry.file? root classes = some p → K p.parts = true) :
    Mirrors (Beside (.memory m) (.memory m')) (exampleBlock root classes entry)
      (exampleBlock root classes entry) := by
  unfold ExampleEntry.file? at hfile
  unfold exampleBlock
  cases hsource : entry.source with
  | className name =>
    rw [hsource] at hfile
    refine (mirrors_mk _).bind_of fun s t path _ hpath => ?_
    have hclass : classes.sourceFile name = .ok path := Except.of_mapError_ok hpath
    have hp : K path.parts = true := hfile path (by simp [hclass, Except.toOption])
    refine (Task.mirrors_wrapError _ (mirrors_readText hK hp)).bind fun text => ?_
    exact (mirrors_mk _).bind fun _ => mirrors_pure _
  | file reference =>
    rw [hsource] at hfile
    have hp := hfile _ rfl
    refine (Task.mirrors_wrapError _ (mirrors_isFile hK hp)).bind fun found => ?_
    split
    · exact (Task.mirrors_wrapError _ (mirrors_readText hK hp)).bind fun text => mirrors_mk _
    · exact mirrors_throw _

theorem mirrors_content {spec : Spec} (root : Path) (classes : ClassIndex) (body : String)
    (hfiles : ∀ entry ∈ spec.examples, ∀ p, entry.file? root classes = some p →
      K p.parts = true) :
    Mirrors (Beside (.memory m) (.memory m')) (spec.content root classes body)
      (spec.content root classes body) := by
  refine (mirrors_mk _).bind fun text => ?_
  unfold withExamples
  split
  · exact mirrors_pure _
  · refine Mirrors.bind ?_ fun _ => mirrors_pure _
    exact (mirrors_mapM fun entry he => mirrors_exampleBlock hK (hfiles entry he)).bind
      fun _ => mirrors_pure _

end Examples

theorem sameContent_targetsOf (root : Path) (value : String) :
    Mirrors SameContent (targetsOf root value) (targetsOf root value) := by
  unfold targetsOf
  dsimp only
  split
  · exact mirrors_pure _
  · refine (Task.mirrors_wrapError _ (mirrors_sameContent (moves_isDir _)
      fun s t h => answer_congr h (.exists? _ (some .directory)))).bind fun found => ?_
    split
    · exact (Task.mirrors_wrapError _ (mirrors_sameContent (moves_listDirs _ _)
        fun s t h => answer_congr h (.dirs _ _))).bind fun _ => mirrors_pure _
    · exact mirrors_pure _

/-- What the targets of headers stand for depends on what a store holds. -/
theorem headerTargets_congr (root : Path) (headers : List Markup.Header) {s t : Store}
    (h : SameContent s t) : (headerTargets root headers s).1 = (headerTargets root headers t).1 :=
  ((mirrors_mapM fun value _ => sameContent_targetsOf root value).bind
    (fun _ => mirrors_pure _) s t h).1

end Template

namespace Generator
variable {g : Generator}

/-! ## One template -/

section Plan
variable (hK : m'.filesIn K = m.filesIn K)
include hK

theorem mirrors_plan (done : Progress) {t : Template}
    (hparameters : ∀ dir, ∀ d ∈ Parameters.chain g.project.sourceDir dir,
      K (d.child Parameters.fileName).parts = true)
    (hspread : t.spread g.project.root (.memory m) = t.spread g.project.root (.memory m')) :
    Mirrors (Twin m m') (plan g done t) (plan g done t) := by
  refine (Within.mirrors_onStore (Parameters.mirrors_load _ fun d hd => Parameters.mirrors_readFile
    (mirrors_isFile hK (hparameters _ d hd)) (mirrors_readText hK (hparameters _ d hd)))).bind
    fun parameters => ?_
  unfold spread at hspread
  cases hkind : t.kind with
  | directives spec => exact (mirrors_mk _).bind fun _ => mirrors_pure _
  | headers headers =>
    rw [hkind] at hspread
    have htargets := mirrors_beside (moves_headerTargets g.project.root headers)
      (fun s t h => headerTargets_congr g.project.root headers h) hspread
    exact (Within.mirrors_onStore (Task.mirrors_wrapError _ htargets)).bind fun targets =>
      (mirrors_mk _).bind fun _ => mirrors_pure _

omit hK in
theorem mirrors_declare (origin : String) (docs : DocsIndex) (kind : OutputKind) :
    Mirrors (Twin m m') (declare origin docs kind) (declare origin docs kind) := by
  cases kind with
  | skill name => exact (Within.mirrors_modify fun _ _ => rfl).bind fun _ => mirrors_pure _
  | doc doc =>
    exact (mirrors_mk _).bind fun _ =>
      (Within.mirrors_modify fun _ _ => rfl).bind fun _ => mirrors_pure _
  | command | plain => exact mirrors_pure _

theorem mirrors_finish {done : Progress} {t : Template} {s u : Session} {p : Plan}
    (h : plan g done t s = (.ok p, u)) (body : String)
    (hexamples : ∀ q ∈ t.exampleFiles g.project.root g.classes, K q.parts = true) :
    Mirrors (Twin m m') (p.finish body) (p.finish body) := by
  obtain ⟨spec, hkind, hfinish, _⟩ | ⟨headers, targets, commands, _, _, _, _, _, hfinish, _⟩ :=
    (plan_cases h).2 <;> rw [hfinish]
  · unfold exampleFiles at hexamples
    rw [hkind] at hexamples
    have hcontent := mirrors_content hK g.project.root g.classes body
      fun entry he q hq => hexamples q (List.mem_filterMap.2 ⟨entry, he, hq⟩)
    refine (Within.mirrors_onStore (Task.mirrors_wrapError _ hcontent)).bind fun content => ?_
    refine (mirrors_mk _).bind fun outputs => mirrors_foldlM (fun done output _ => ?_) _
    exact (mirrors_declare _ _ _).bind fun _ => (mirrors_mk _).bind fun _ => mirrors_pure _
  · exact (mirrors_foldlM (fun _ _ _ => mirrors_mk _) _).bind fun _ => mirrors_pure _

end Plan

end Generator
end AgentDocs
