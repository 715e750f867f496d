import AgentDocs.Proofs.Effect
import AgentDocs.Template.Outputs

/-! # Which files directives declare

The files of a template are those of a skill, commands, a plain output and docs, in this order. The
first of them is told from the directives alone. -/
namespace AgentDocs

/-- What is said of each answer of a loop is said of all of them, in order. -/
theorem Except.map_of_mapM {ε α β γ : Type} {f : α → Except ε β} {key : β → γ} {name : α → γ}
    (hf : ∀ a b, f a = .ok b → key b = name a) {as : List α} {bs : List β}
    (h : as.mapM f = .ok bs) : bs.map key = as.map name := by
  induction as generalizing bs with
  | nil =>
    cases h
    rfl
  | cons a as ih =>
    rw [List.mapM_cons] at h
    obtain ⟨b, hb, h⟩ := exists_of_bind_ok h
    obtain ⟨rest, hrest, h⟩ := exists_of_bind_ok h
    cases h
    rw [List.map_cons, List.map_cons, hf a b hb, ih hrest]

namespace Template

/-- A skill is known by the last part of its target. -/
def Skill.knownAs (s : Skill) : String :=
  (Text.fields '/' (Text.trimSlashes s.target)).getLast?.getD ""

/-- The kinds of the files of directives: those of a skill, commands, a plain output and docs. -/
def Spec.kinds (spec : Spec) : List OutputKind :=
  spec.skill.toList.map (fun s => .skill s.knownAs) ++ spec.commands.map (fun _ => .command) ++
    spec.output.toList.map (fun _ => .plain) ++ spec.docs.toList.map .doc

theorem Skill.kind_of_output {s : Skill} {content : String} {o : Output}
    (h : s.output content = .ok o) : o.kind = .skill s.knownAs := by
  unfold Skill.output at h
  dsimp only at h
  split at h
  · cases h
  · rw [← Except.ok.inj h]
    rfl

theorem Prompt.kind_of_output {p : Prompt} {content : String} {o : Output}
    (h : p.output content = .ok o) : o.kind = .command := by
  unfold Prompt.output at h
  split at h <;> cases h
  rfl

theorem kind_of_plainOutput {target content : String} {o : Output}
    (h : plainOutput target content = .ok o) : o.kind = .plain := by
  unfold plainOutput at h
  split at h <;> cases h
  rfl

theorem Doc.kind_of_output {d : Doc} {base : Option String} {content : String} {o : Output}
    (h : d.output base content = .ok o) : o.kind = .doc d := by
  unfold Doc.output at h
  split at h
  · cases h
  · split at h <;> cases h
    rfl

theorem kinds_of_outputs {spec : Spec} {base : Option String} {content : String}
    {outputs : List Output} (h : spec.outputs base content = .ok outputs) :
    outputs.map (·.kind) = spec.kinds := by
  obtain ⟨skills, hskills, h₁⟩ := Except.exists_of_bind_ok h
  obtain ⟨commands, hcommands, h₂⟩ := Except.exists_of_bind_ok h₁
  obtain ⟨plain, hplain, h₃⟩ := Except.exists_of_bind_ok h₂
  obtain ⟨docs, hdocs, h₄⟩ := Except.exists_of_bind_ok h₃
  cases h₄
  rw [List.map_append, List.map_append, List.map_append,
    Except.map_of_mapM (fun _ _ => Skill.kind_of_output) hskills,
    Except.map_of_mapM (fun _ _ => Prompt.kind_of_output) hcommands,
    Except.map_of_mapM (fun _ _ => kind_of_plainOutput) hplain,
    Except.map_of_mapM (fun _ _ => Doc.kind_of_output) hdocs]
  rfl

/-! ## Where the files are -/

/-- The files of directives, below the root. -/
def Spec.files (spec : Spec) (base : Option String) : List Path :=
  spec.skill.toList.map Skill.file ++ spec.commands.map Prompt.file ++
    spec.output.toList.map plainFile ++ spec.docs.toList.filterMap fun doc => base.map doc.file

theorem Skill.target_of_output {s : Skill} {content : String} {o : Output}
    (h : s.output content = .ok o) : o.target = s.file := by
  unfold Skill.output at h
  dsimp only at h
  split at h
  · cases h
  · rw [← Except.ok.inj h]

theorem Prompt.target_of_output {p : Prompt} {content : String} {o : Output}
    (h : p.output content = .ok o) : o.target = p.file := by
  unfold Prompt.output at h
  split at h <;> cases h
  rfl

theorem target_of_plainOutput {target content : String} {o : Output}
    (h : plainOutput target content = .ok o) : o.target = plainFile target := by
  unfold plainOutput at h
  split at h <;> cases h
  rfl

/-- A doc has a file only where there is a directory for docs. -/
theorem Doc.target_of_output {d : Doc} {base : Option String} {content : String} {o : Output}
    (h : d.output base content = .ok o) : base.map d.file = some o.target := by
  unfold Doc.output at h
  split at h
  · cases h
  · split at h <;> cases h
    rfl

theorem targets_of_outputs {spec : Spec} {base : Option String} {content : String}
    {outputs : List Output} (h : spec.outputs base content = .ok outputs) :
    outputs.map (·.target) = spec.files base := by
  obtain ⟨skills, hskills, h₁⟩ := Except.exists_of_bind_ok h
  obtain ⟨commands, hcommands, h₂⟩ := Except.exists_of_bind_ok h₁
  obtain ⟨plain, hplain, h₃⟩ := Except.exists_of_bind_ok h₂
  obtain ⟨docs, hdocs, h₄⟩ := Except.exists_of_bind_ok h₃
  cases h₄
  have hfiles : docs.map (some ·.target) = spec.docs.toList.map fun d => base.map d.file :=
    Except.map_of_mapM (fun _ _ h => (Doc.target_of_output h).symm) hdocs
  have htargets : docs.map (·.target) = spec.docs.toList.filterMap fun d => base.map d.file := by
    simpa [List.filterMap_map, Function.comp_def] using congrArg (List.filterMap id) hfiles
  rw [List.map_append, List.map_append, List.map_append,
    Except.map_of_mapM (fun _ _ => Skill.target_of_output) hskills,
    Except.map_of_mapM (fun _ _ => Prompt.target_of_output) hcommands,
    Except.map_of_mapM (fun _ _ => target_of_plainOutput) hplain, htargets]
  rfl

/-- The first file is known before the template is expanded. -/
theorem Spec.head?_files (spec : Spec) (base : Option String) :
    (spec.files base).head? = spec.firstFile? base := by
  obtain ⟨_, _, _, _, _, skill, output, docs, commands⟩ := spec
  cases skill <;> cases commands <;> cases output <;> cases docs <;> cases base <;> rfl

theorem head?_target_of_outputs {spec : Spec} {base : Option String} {content : String}
    {outputs : List Output} (h : spec.outputs base content = .ok outputs) :
    outputs.head?.map (·.target) = spec.firstFile? base := by
  rw [← Spec.head?_files, ← targets_of_outputs h, List.head?_map]

end Template
end AgentDocs
