import AgentDocs.Proofs.Generate.Claims
import AgentDocs.Proofs.Generate.Stages
import AgentDocs.Proofs.Path.Absolute
import AgentDocs.Proofs.Path.Inside
import AgentDocs.Proofs.Path.Map
import AgentDocs.Proofs.Template.Outputs

/-! # Targets that are known before

The first target of a template is guessed from its directives or headers before it is expanded. The
guess is right: if the template is expanded, one of its files is for this target. Links in it are
written from a directory that is given from the root. -/
namespace AgentDocs
open Effect Store Session Template Text

variable {root : Path}

/-! ## What artifacts are for -/

namespace Artifacts

/-- Whether one of the artifacts is for a place. -/
def Holds (as : Artifacts) (place : Path) : Prop := ∃ a ∈ as.items, placeOf as.root a.path = place

/-- How artifacts become more. -/
structure Gains (as bs : Artifacts) : Prop where
  root : bs.root = as.root
  holds : ∀ place, as.Holds place → bs.Holds place

theorem Gains.refl (as : Artifacts) : Gains as as := ⟨rfl, fun _ => id⟩

theorem Gains.trans {as bs cs : Artifacts} (hab : Gains as bs) (hbc : Gains bs cs) : Gains as cs :=
  ⟨hbc.root.trans hab.root, fun place h => hbc.holds place (hab.holds place h)⟩

/-- Whether artifacts for a root have one for a target. -/
def Claims (as : Artifacts) (target : Path) : Prop :=
  as.root.normal = as.root → as.Holds (as.root.join target).normal

theorem Claims.gains {as bs : Artifacts} {target : Path} (h : as.Claims target)
    (hgains : Gains as bs) : bs.Claims target := by
  intro hnormal
  rw [hgains.root] at hnormal ⊢
  exact hgains.holds _ (h hnormal)

theorem mem_place_self (a : Artifact) (items : List Artifact) : a ∈ place a items := by
  induction items with
  | nil => exact List.mem_singleton_self a
  | cons b items ih =>
    unfold place
    split
    · exact List.mem_cons_self
    · split
      · exact List.mem_cons_self
      · exact List.mem_cons_of_mem _ ih

/-- No path is lost where an artifact is placed. -/
theorem exists_path_of_place (a : Artifact) {b : Artifact} {items : List Artifact}
    (h : b ∈ items) : ∃ c ∈ place a items, c.path = b.path := by
  induction items with
  | nil => cases h
  | cons d items ih =>
    unfold place
    split
    · exact ⟨b, List.mem_cons_of_mem _ h, rfl⟩
    split
    · rename_i heq
      rcases List.mem_cons.1 h with rfl | h
      · exact ⟨a, List.mem_cons_self, heq⟩
      · exact ⟨b, List.mem_cons_of_mem _ h, rfl⟩
    · rcases List.mem_cons.1 h with rfl | h
      · exact ⟨b, List.mem_cons_self, rfl⟩
      · obtain ⟨c, hc, hpath⟩ := ih h
        exact ⟨c, List.mem_cons_of_mem _ hc, hpath⟩

/-- The path of a target below the root stands for the target. -/
theorem placeOf_of_relative? {target : Path} {path : String} (hroot : root.normal = root)
    (h : relative? root target = some path) : placeOf root path = (root.join target).normal := by
  obtain ⟨names, hnames, -, rfl, hparts⟩ := exists_names_of_relative? h
  refine Path.eq_of_normal (Path.normal_normal _) (Path.normal_normal _) ?_
  rw [placeOf, Path.parts_normal_join_slashed root hnames, hroot, hparts]

theorem claims_of_insert {as bs : Artifacts} {origin : String} {target : Path} {content : String}
    (h : as.insert origin target content = .ok bs) : Gains as bs ∧ bs.Claims target := by
  obtain ⟨path, hpath, _, rfl⟩ := exists_of_insert h
  refine ⟨⟨rfl, ?_⟩, fun hnormal => ?_⟩
  · rintro _ ⟨b, hb, rfl⟩
    obtain ⟨c, hc, hsame⟩ := exists_path_of_place _ hb
    exact ⟨c, hc, by rw [hsame]⟩
  · exact ⟨_, mem_place_self _ _, placeOf_of_relative? hnormal hpath⟩

end Artifacts

/-! ## Directories that are listed -/

namespace Store

/-- What is right inside a directory from the root is from the root. -/
theorem Memory.isAbsolute_of_mem_childrenOf {m : Memory} {dir : Path}
    (hdir : dir.isAbsolute = true) : ∀ p ∈ m.childrenOf dir, p.isAbsolute = true := by
  intro p hp
  obtain ⟨⟨k, v⟩, hk, rfl⟩ := List.mem_map.1 hp
  obtain ⟨q, hq, hmem⟩ := PathMap.exists_of_mem_ofList hk
  obtain ⟨q', hq', heq⟩ := List.mem_map.1 hmem
  cases heq
  obtain ⟨outer, houter, hsame⟩ := (Option.any_eq_true _ _).1 (List.mem_filter.1 hq').2
  exact Path.isAbsolute_of_parts hq (Path.isAbsolute_of_parent? houter
    (Path.isAbsolute_of_parts (Path.same_iff.1 hsame).symm hdir))

theorem Disk.isAbsolute_of_mem_children {d : Disk} {dir : Path} (hdir : dir.isAbsolute = true)
    {children : List (Path × Entry)} (h : d.children dir = .ok children) :
    ∀ c ∈ children, c.1.isAbsolute = true := by
  intro c hc
  obtain ⟨⟨place, entry⟩, _, hcases⟩ := Except.exists_of_bind_ok h
  cases entry with
  | file content => cases hcases
  | directory =>
    cases hcases
    obtain ⟨⟨q, e⟩, _, hchild⟩ := List.mem_filterMap.1 hc
    dsimp only at hchild
    split at hchild
    · rename_i name _
      by_cases hplace : q.dropLast = place
      · rw [if_pos hplace] at hchild
        cases hchild
        exact Path.isAbsolute_join hdir
      · rw [if_neg hplace] at hchild
        cases hchild
    · cases hchild

theorem isAbsolute_of_listDirs {dir : Path} (hdir : dir.isAbsolute = true) {pattern : String}
    {s t : Store} {dirs : List Path} (h : listDirs dir pattern s = (.ok dirs, t)) :
    ∀ d ∈ dirs, d.isAbsolute = true := by
  obtain ⟨pieces, u, _, h⟩ := exists_of_bind_ok h
  intro d hd
  cases u with
  | memory m =>
    have hlist : m.listDirs dir pieces = .ok dirs := congrArg (·.1) h
    obtain ⟨children, hchildren, hfilter⟩ := Except.exists_of_bind_ok hlist
    cases hfilter
    unfold Memory.children at hchildren
    split at hchildren
    · cases hchildren
      exact Memory.isAbsolute_of_mem_childrenOf hdir d (List.mem_filter.1 hd).1
    · cases hchildren
  | disk disk =>
    have hlist : disk.listDirs dir pieces = .ok dirs :=
      Except.of_mapError_ok (congrArg (·.1) h)
    obtain ⟨children, hchildren, hfilter⟩ := Except.exists_of_bind_ok hlist
    cases hfilter
    obtain ⟨c, hc, rfl⟩ := List.mem_map.1 hd
    exact Disk.isAbsolute_of_mem_children hdir hchildren c (List.mem_filter.1 hc).1

end Store

namespace Template

/-! ## Targets of headers -/

theorem isAbsolute_targetsOf (hroot : root.isAbsolute = true) {value : String} {s t : Store}
    {targets : List Path} (h : targetsOf root value s = (.ok targets, t)) :
    ∀ target ∈ targets, target.isAbsolute = true := by
  cases hsplit : splitLast '*' (dropSlashes value).toList with
  | none =>
    simp only [targetsOf, hsplit] at h
    cases h
    intro target ht
    rw [List.mem_singleton.1 ht]
    exact Path.isAbsolute_normal (Path.isAbsolute_join hroot)
  | some around =>
    simp only [targetsOf, hsplit] at h
    have hdir : (root.join ⟨String.ofList around.1⟩).normal.isAbsolute = true :=
      Path.isAbsolute_normal (Path.isAbsolute_join hroot)
    obtain ⟨found, u, _, h⟩ := exists_of_bind_ok h
    split at h
    · obtain ⟨dirs, v, hdirs, h⟩ := exists_of_bind_ok h
      cases h
      intro target ht
      obtain ⟨d, hd, rfl⟩ := List.mem_map.1 ht
      have hlist : (listDirs (root.join ⟨String.ofList around.1⟩).normal "*" u).1 = .ok dirs :=
        Except.of_mapError_ok (congrArg (·.1) hdirs)
      obtain ⟨cs, hcs⟩ := Path.exists_of_isAbsolute
        (Store.isAbsolute_of_listDirs hdir (Prod.ext hlist rfl) d hd)
      exact Path.isAbsolute_normal (by simp [Path.isAbsolute, hcs])
    · cases h
      intro target ht
      cases ht

theorem isAbsolute_headerTargets (hroot : root.isAbsolute = true) {headers : List Markup.Header}
    {s t : Store} {targets : List Path} (h : headerTargets root headers s = (.ok targets, t)) :
    ∀ target ∈ targets, target.isAbsolute = true := by
  obtain ⟨lists, u, hlists, h⟩ := exists_of_bind_ok h
  cases h
  intro target ht
  obtain ⟨list, hlist, htarget⟩ := List.mem_flatten.1 ht
  obtain ⟨value, v, w, hvalue⟩ := exists_of_mem_mapM hlists list hlist
  exact isAbsolute_targetsOf hroot hvalue target htarget

theorem within_of_literalTarget? {headers : List Markup.Header} {target : Path}
    (h : literalTarget? root headers = some target) : ∃ value, target = root.within value := by
  unfold literalTarget? at h
  split at h
  · cases h
  · split at h
    · cases h
    · exact ⟨_, (Option.some.inj h).symm⟩

/-- A target without a `*` is one file. -/
theorem targetsOf_literal {value : String} (h : '*' ∉ value.toList) :
    targetsOf root value = pure [root.within value] := by
  have hnone : splitLast '*' (dropSlashes value).toList = none := by
    rw [Option.eq_none_iff_forall_ne_some]
    rintro ⟨before, behind⟩ hsplit
    have hmem : '*' ∈ (dropSlashes value).toList := by
      rw [eq_of_splitLast hsplit]
      exact List.mem_append_right _ List.mem_cons_self
    rw [dropSlashes, onChars, String.toList_ofList] at hmem
    exact h ((List.dropWhile_suffix _).subset hmem)
  simp only [targetsOf, hnone]
  rfl

/-- The first target, if it is literal, is the first of the files. -/
theorem head?_of_literalTarget? {headers : List Markup.Header} {s t : Store} {target : Path}
    {targets : List Path} (hliteral : literalTarget? root headers = some target)
    (h : headerTargets root headers s = (.ok targets, t)) : targets.head? = some target := by
  obtain ⟨lists, u, hlists, h⟩ := exists_of_bind_ok h
  cases h
  unfold literalTarget? at hliteral
  cases hvalues : values targetName headers with
  | nil =>
    rw [hvalues] at hliteral
    cases hliteral
  | cons value rest =>
    rw [hvalues] at hliteral hlists
    dsimp only at hliteral
    split at hliteral
    · cases hliteral
    rename_i hstar
    obtain rfl := Option.some.inj hliteral
    rw [List.mapM_cons, targetsOf_literal fun hmem => hstar (List.contains_iff_mem.2 hmem)] at hlists
    obtain ⟨first, v, hfirst, hlists⟩ := exists_of_bind_ok hlists
    obtain ⟨others, w, _, hlists⟩ := exists_of_bind_ok hlists
    cases hlists
    cases hfirst
    rfl

/-! ## Files of directives -/

/-- The first file of a template is one of its files. -/
theorem exists_output_of_firstFile? {spec : Spec} {base : Option String} {content : String}
    {outputs : List Output} {file : Path} (hfirst : spec.firstFile? base = some file)
    (h : spec.outputs base content = .ok outputs) : ∃ o ∈ outputs, o.target = file := by
  rw [← head?_target_of_outputs h] at hfirst
  obtain ⟨o, ho, hfile⟩ := Option.map_eq_some_iff.1 hfirst
  exact ⟨o, List.mem_of_head? ho, hfile⟩

theorem isAbsolute_primaryTarget (hroot : root.isAbsolute = true) {spec : Spec}
    {base : Option String} {target : Path} (h : spec.primaryTarget root base = some target) :
    target.isAbsolute = true := by
  obtain ⟨file, _, rfl⟩ := Option.map_eq_some_iff.1 h
  exact Path.isAbsolute_normal (Path.isAbsolute_join hroot)

theorem isAbsolute_linkDir (hroot : root.isAbsolute = true) (spec : Spec) (base : Option String) :
    (spec.linkDir root base).isAbsolute = true := by
  unfold Spec.linkDir
  cases hdir : (spec.primaryTarget root base).bind Path.parent? with
  | none => exact hroot
  | some dir =>
    obtain ⟨target, htarget, hparent⟩ := Option.bind_eq_some_iff.1 hdir
    exact Path.isAbsolute_parent? (isAbsolute_primaryTarget hroot htarget) hparent

end Template

namespace Generator
open Artifacts
variable {g : Generator} {t : Template} {done after : Progress} {s u : Session}

/-! ## What a template brings -/

/-- What is planned for a template comes from its directives or from its headers. -/
theorem plan_cases {p : Plan} (h : plan g done t s = (.ok p, u)) :
    p.template.source = t.source ∧
      ((∃ spec, t.kind = .directives spec ∧ p.finish = finishDirectives g t spec done ∧
        p.targetDir = spec.linkDir g.project.root g.project.docsBase) ∨
      ∃ headers targets commands before behind, t.kind = .headers headers ∧
        headerTargets g.project.root headers before = (.ok targets, behind) ∧
        commandsFor g.project t headers = .ok commands ∧
        p.finish = finishHeaders t targets commands done ∧
        p.targetDir = ((targets.head?.bind Path.parent?).orElse fun _ => commands.map (·.1)).getD
          g.project.root) := by
  obtain ⟨parameters, s₁, _, h⟩ := exists_of_bind_ok h
  cases hkind : t.kind with
  | directives spec =>
    rw [hkind] at h
    obtain ⟨listed, s₂, _, h⟩ := exists_of_bind_ok h
    cases h
    exact ⟨rfl, .inl ⟨spec, rfl, rfl, rfl⟩⟩
  | headers headers =>
    rw [hkind] at h
    obtain ⟨targets, s₂, htargets, h⟩ := exists_of_bind_ok h
    obtain ⟨commands, s₃, hcommands, h⟩ := exists_of_bind_ok h
    cases h
    refine ⟨rfl, .inr ⟨headers, targets, commands, s₁.store, _, rfl, Prod.ext ?_ rfl, ?_, rfl, rfl⟩⟩
    · exact Except.of_mapError_ok (congrArg (·.1) htargets)
    · exact congrArg (·.1) hcommands

theorem isAbsolute_commandsFor (hroot : g.project.root.isAbsolute = true)
    {headers : List Markup.Header} {found : Path × List HeaderCommand}
    (h : commandsFor g.project t headers = .ok (some found)) : found.1.isAbsolute = true := by
  unfold commandsFor at h
  split at h
  · cases Except.ok.inj h
  · rename_i dir hdir
    obtain ⟨text, _, rfl⟩ := Option.map_eq_some_iff.1 hdir
    have hfound := Except.of_mapError_ok h
    cases hcommands : headerCommands headers (t.source.path.fileName?.getD "") with
    | error e =>
      rw [hcommands] at hfound
      cases hfound
    | ok commands =>
      rw [hcommands] at hfound
      rw [← Option.some.inj (Except.ok.inj hfound)]
      exact Path.isAbsolute_normal (Path.isAbsolute_join hroot)

/-- Links of a template are written from a directory that is given from the root. -/
theorem isAbsolute_plan (hroot : g.project.root.isAbsolute = true) {p : Plan}
    (h : plan g done t s = (.ok p, u)) : p.targetDir.isAbsolute = true := by
  obtain ⟨spec, _, _, hdir⟩ | ⟨headers, targets, commands, _, _, _, htargets, hcommands, _, hdir⟩ :=
    (plan_cases h).2 <;> rw [hdir]
  · exact isAbsolute_linkDir hroot spec _
  cases hfirst : targets.head?.bind Path.parent? with
  | some dir =>
    obtain ⟨target, htarget, hparent⟩ := Option.bind_eq_some_iff.1 hfirst
    exact Path.isAbsolute_parent?
      (isAbsolute_headerTargets hroot htargets target (List.mem_of_head? htarget)) hparent
  | none =>
    cases commands with
    | none => exact hroot
    | some found => exact isAbsolute_commandsFor hroot hcommands

theorem adds_addOutput {origin : String} {output : Output}
    (h : addOutput origin done output s = (.ok after, u)) :
    Gains done.artifacts after.artifacts ∧ after.artifacts.Claims output.target := by
  obtain ⟨docs, s₁, _, h⟩ := exists_of_bind_ok h
  obtain ⟨artifacts, s₂, hinsert, h⟩ := exists_of_bind_ok h
  cases h
  exact claims_of_insert (congrArg (·.1) hinsert)

theorem adds_outputs {origin : String} {outputs : List Output}
    (h : outputs.foldlM (addOutput origin) done s = (.ok after, u)) :
    Gains done.artifacts after.artifacts ∧ ∀ o ∈ outputs, after.artifacts.Claims o.target :=
  foldlM_adds
    (R := fun a b : Progress => Gains a.artifacts b.artifacts)
    (P := fun (o : Output) (b : Progress) => b.artifacts.Claims o.target)
    (fun _ => .refl _) (fun _ _ _ => .trans) (fun _ _ _ => .gains)
    (fun _ _ _ _ _ => adds_addOutput) h

theorem adds_finishDirectives {spec : Spec} {body : String}
    (h : finishDirectives g t spec done body s = (.ok after, u)) :
    Gains done.artifacts after.artifacts ∧
      ∀ file, spec.firstFile? g.project.docsBase = some file → after.artifacts.Claims file := by
  obtain ⟨content, s₁, _, h⟩ := exists_of_bind_ok h
  obtain ⟨outputs, s₂, houtputs, h⟩ := exists_of_bind_ok h
  have houtputs : spec.outputs g.project.docsBase content = .ok outputs :=
    Except.of_mapError_ok (congrArg (·.1) houtputs)
  obtain ⟨hgains, hclaims⟩ := adds_outputs h
  refine ⟨hgains, fun file hfile => ?_⟩
  obtain ⟨o, ho, rfl⟩ := exists_output_of_firstFile? hfile houtputs
  exact hclaims o ho

theorem adds_finishHeaders {targets : List Path} {commands : Option (Path × List HeaderCommand)}
    {body : String} (h : finishHeaders t targets commands done body s = (.ok after, u)) :
    Gains done.artifacts after.artifacts ∧ ∀ target ∈ targets, after.artifacts.Claims target := by
  obtain ⟨artifacts, s₁, hfold, h⟩ := exists_of_bind_ok h
  cases h
  obtain ⟨hgains, hclaims⟩ := foldlM_adds (R := Gains)
    (P := fun (file : Path × String) bs => bs.Claims file.1)
    Gains.refl (fun _ _ _ => .trans) (fun _ _ _ => .gains)
    (fun _ _ _ _ _ h => claims_of_insert (congrArg (·.1) h)) hfold
  refine ⟨hgains, fun target htarget => hclaims (target, body) ?_⟩
  have hplain : (target, body) ∈ targets.map ((·, body)) := List.mem_map.2 ⟨target, htarget, rfl⟩
  unfold headerFiles
  cases commands with
  | none => exact hplain
  | some found => exact List.mem_append_left _ hplain

/-- What is known of a template is from the root. -/
theorem rooted_knownTarget? (hroot : g.project.root.isAbsolute = true) {known : Path × Path}
    (h : knownTarget? g.project t = some known) :
    known.1 = t.source.path ∧ known.2.Rooted ∧ known.2.normal = known.2 := by
  obtain ⟨target, htarget, rfl⟩ := Option.map_eq_some_iff.1 h
  have hspelled : ∃ p : Path, target = p.normal ∧ p.isAbsolute = true := by
    split at htarget
    · obtain ⟨file, _, hfile⟩ := Option.map_eq_some_iff.1 htarget
      exact ⟨g.project.root.join file, hfile.symm, Path.isAbsolute_join hroot⟩
    · obtain ⟨value, hvalue⟩ := within_of_literalTarget? htarget
      exact ⟨g.project.root.join ⟨dropSlashes value⟩, hvalue, Path.isAbsolute_join hroot⟩
  obtain ⟨p, rfl, hp⟩ := hspelled
  exact ⟨rfl, Path.rooted_normal hp, Path.normal_normal p⟩

/-- An expanded template keeps all files that there were, and one of its own is for the target that
was known of it. -/
theorem adds_expand (hroot : g.project.root.isAbsolute = true)
    (h : expand g g.renderer g.overrides done t s = (.ok after, u)) :
    Gains done.artifacts after.artifacts ∧ ∀ known, knownTarget? g.project t = some known →
      after.artifacts.root = g.project.root.normal → after.artifacts.Holds known.2 := by
  rw [expand_eq] at h
  obtain ⟨p, s₁, hplan, h⟩ := exists_of_bind_ok h
  obtain ⟨body, s₂, _, h⟩ := exists_of_bind_ok h
  obtain ⟨spec, hkind, hfinish, _⟩ | ⟨headers, targets, commands, _, _, hkind, htargets, _,
    hfinish, _⟩ := (plan_cases hplan).2 <;> rw [hfinish] at h
  · obtain ⟨hgains, hclaims⟩ := adds_finishDirectives h
    refine ⟨hgains, fun known hknown hnormal => ?_⟩
    simp only [knownTarget?, hkind] at hknown
    obtain ⟨target, htarget, rfl⟩ := Option.map_eq_some_iff.1 hknown
    obtain ⟨file, hfile, rfl⟩ := Option.map_eq_some_iff.1 htarget
    have hholds := hclaims file hfile (by rw [hnormal, Path.normal_normal])
    rwa [hnormal, Path.normal_join_normal] at hholds
  · obtain ⟨hgains, hclaims⟩ := adds_finishHeaders h
    refine ⟨hgains, fun known hknown hnormal => ?_⟩
    obtain ⟨_, hrooted, hsame⟩ := rooted_knownTarget? hroot hknown
    simp only [knownTarget?, hkind] at hknown
    obtain ⟨target, htarget, rfl⟩ := Option.map_eq_some_iff.1 hknown
    have hholds := hclaims target (List.mem_of_head? (head?_of_literalTarget? htarget htargets))
      (by rw [hnormal, Path.normal_normal])
    rwa [Path.join, if_pos hrooted.isAbsolute, hsame] at hholds

end Generator
end AgentDocs
