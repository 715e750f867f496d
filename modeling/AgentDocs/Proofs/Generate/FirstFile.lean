import AgentDocs.Proofs.Generate.Insertions

/-! # The file for which a template is known

Links to a template lead to its first file, which is told from its directives or its headers alone.
What directives tell is right for every template: it is the place for which the first file is kept.
Headers tell the file of the first target, and nothing if that target has a `*`, though a later
target may have none. -/
namespace AgentDocs
open Effect Store

namespace Template
open Markup
variable {root : Path} {headers : List Header}

/-! ## Headers -/

/-- Whether a header names a target. -/
def isTarget (h : Header) : Bool := h.name == targetName.toList

/-- Whether a header names a target, and the target is one file. -/
def isLiteral (h : Header) : Bool := isTarget h && !h.value.contains '*'

/-- The file of a target without a `*`. -/
def literalFile (root : Path) (h : Header) : Path := root.within (String.ofList h.value)

/-- Only the first target is looked at. -/
theorem literalTarget?_eq (root : Path) (headers : List Header) :
    literalTarget? root headers =
      ((headers.find? isTarget).filter isLiteral).map (literalFile root) := by
  have hvalues : values targetName headers
      = (headers.filter isTarget).map fun h => String.ofList h.value := by
    simp only [values, valuesOf, List.map_map]
    rfl
  rw [← List.head?_filter, literalTarget?, hvalues]
  cases htargets : headers.filter isTarget with
  | nil => rfl
  | cons h rest =>
    have htarget : isTarget h = true :=
      (List.mem_filter.1 (htargets ▸ List.mem_cons_self : h ∈ headers.filter isTarget)).2
    by_cases hstar : '*' ∈ h.value <;> simp [isLiteral, htarget, hstar, literalFile]

/-- A first target that is one file is the first target of this kind. -/
theorem find?_isLiteral_of_first {h : Header} (hfirst : headers.find? isTarget = some h)
    (hliteral : isLiteral h = true) : headers.find? isLiteral = some h := by
  obtain ⟨_, before, rest, rfl, hbefore⟩ := List.find?_eq_some_iff_append.1 hfirst
  refine List.find?_eq_some_iff_append.2 ⟨hliteral, before, rest, rfl, fun other hother => ?_⟩
  have hnot := hbefore other hother
  simp only [Bool.not_eq_true'] at hnot ⊢
  rw [isLiteral, hnot, Bool.false_and]

theorem literalTarget?_of_first {h : Header} (hfirst : headers.find? isTarget = some h)
    (hliteral : isLiteral h = true) : literalTarget? root headers = some (literalFile root h) := by
  rw [literalTarget?_eq, hfirst, Option.filter_some, if_pos hliteral, Option.map_some]

/-- What is told is the file of the first target that is one file. -/
theorem exists_literal_of_literalTarget? {target : Path}
    (h : literalTarget? root headers = some target) :
    ∃ l, headers.find? isTarget = some l ∧ headers.find? isLiteral = some l ∧
      literalFile root l = target := by
  rw [literalTarget?_eq] at h
  obtain ⟨l, hfilter, hfile⟩ := Option.map_eq_some_iff.1 h
  obtain ⟨hfirst, hliteral⟩ := Option.filter_eq_some_iff.1 hfilter
  exact ⟨l, hfirst, find?_isLiteral_of_first hfirst hliteral, hfile⟩

/-- A target that is one file is passed over exactly where one with a `*` comes before it. -/
theorem literalTarget?_eq_iff (root : Path) (headers : List Header) :
    literalTarget? root headers = (headers.find? isLiteral).map (literalFile root) ↔
      headers.find? isLiteral = none ∨ headers.find? isLiteral = headers.find? isTarget := by
  constructor
  · intro h
    cases hliteral : headers.find? isLiteral with
    | none => exact .inl rfl
    | some l =>
      rw [hliteral] at h
      obtain ⟨l', hfirst, hliteral', -⟩ := exists_literal_of_literalTarget? h
      rw [hfirst, ← hliteral, hliteral']
      exact .inr rfl
  · rintro (hnone | hsame)
    · rw [hnone, Option.map_none, Option.eq_none_iff_forall_ne_some]
      intro target h
      obtain ⟨l, -, hliteral, -⟩ := exists_literal_of_literalTarget? h
      rw [hnone] at hliteral
      cases hliteral
    · cases hliteral : headers.find? isLiteral with
      | none =>
        rw [literalTarget?_eq, ← hsame, hliteral]
        rfl
      | some l => exact literalTarget?_of_first (hsame ▸ hliteral) (List.find?_some hliteral)

/-- Every file that is told without looking into directories is written with the text of the
template, before all others. It is told unless the first target has a `*`. -/
theorem literalTarget?_of_headers (root : Path) (headers : List Header) :
    (literalTarget? root headers = (headers.find? isLiteral).map (literalFile root) ↔
      headers.find? isLiteral = none ∨ headers.find? isLiteral = headers.find? isTarget) ∧
    ∀ target, literalTarget? root headers = some target →
      (headers.find? isLiteral).map (literalFile root) = some target ∧
      ∀ s t targets, headerTargets root headers s = (.ok targets, t) →
        targets.head? = some target ∧
        ∀ commands body,
          (Generator.headerFiles targets commands body).head? = some (target, body) := by
  refine ⟨literalTarget?_eq_iff root headers, fun target h => ⟨?_, fun s t targets htargets => ?_⟩⟩
  · obtain ⟨l, -, hliteral, hfile⟩ := exists_literal_of_literalTarget? h
    rw [hliteral, Option.map_some, hfile]
  · have hhead := head?_of_literalTarget? h htargets
    refine ⟨hhead, fun commands body => ?_⟩
    obtain ⟨others, rfl⟩ := List.head?_eq_some_iff.1 hhead
    cases commands <;> rfl

/-- The second of these targets is one file. -/
def literalAfterStar : List Header :=
  [⟨"target".toList, "out/*/x.md".toList⟩, ⟨"target".toList, "a.md".toList⟩]

/-- The first target that is one file is written, and is not told. -/
theorem literalAfterStar_untold :
    (literalAfterStar.find? isLiteral).map (literalFile ⟨"/work"⟩) = some ⟨"/work/a.md"⟩ ∧
      (headerTargets ⟨"/work"⟩ literalAfterStar (.memory .empty)).1 = .ok [⟨"/work/a.md"⟩] ∧
      literalTarget? ⟨"/work"⟩ literalAfterStar = none := by
  decide

/-! ## Directives -/

/-- The first file is told exactly if there are files, as the place that its path will stand for. -/
theorem primaryTarget_of_outputs (root : Path) {spec : Spec} {base : Option String}
    {content : String} {outputs : List Output} (h : spec.outputs base content = .ok outputs) :
    (spec.primaryTarget root base = none ↔ outputs = []) ∧
    ∀ first rest, outputs = first :: rest →
      spec.primaryTarget root base = some (root.join first.target).normal ∧
      ∀ (as bs : Artifacts) (origin : String), as.root = root.normal →
        as.insert origin first.target first.content = .ok bs →
        ∃ path, placeOf root path = (root.join first.target).normal ∧
          ∀ other, bs.find? other = if path = other
            then some ⟨path, Artifacts.finished first.content, origin⟩ else as.find? other := by
  have hprimary : spec.primaryTarget root base
      = outputs.head?.map fun o => (root.join o.target).normal := by
    rw [Spec.primaryTarget, ← head?_target_of_outputs h, Option.map_map]
    rfl
  rw [hprimary]
  refine ⟨by rw [Option.map_eq_none_iff, List.head?_eq_none_iff], ?_⟩
  rintro first rest rfl
  refine ⟨rfl, fun as bs origin hroot hinsert => ?_⟩
  let claim : Artifacts.Insertion := ⟨origin, first.target, first.content⟩
  obtain ⟨path, htakes⟩ := Artifacts.exists_takes (i := claim) hinsert
  refine ⟨path, ?_, htakes.found⟩
  have hplace := Artifacts.placeOf_of_relative? (hroot ▸ Path.normal_normal root) htakes.inside
  rwa [hroot, placeOf, Path.normal_join_normal, Path.normal_join_normal] at hplace

/-- A template with files of all four kinds. -/
def deployed : Spec where
  main := false
  priority := default
  literal := false
  api := []
  examples := []
  skill := some ⟨"//skills/./deploy/", "deploy", "Deploys."⟩
  output := some "/a/../b.md"
  docs := some ⟨"/guide.md", "A guide."⟩
  commands := [⟨"review", "Review $ARGUMENTS"⟩]

theorem primaryTarget_deployed :
    ∃ first rest, deployed.outputs (some "/docs/") "Body" = .ok (first :: rest) ∧
      deployed.primaryTarget ⟨"/work/."⟩ (some "/docs/")
        = some ⟨"/work/skills/deploy/SKILL.md"⟩ ∧
      ∃ bs, (Artifacts.empty ⟨"/work/."⟩).insert "a.md" first.target first.content = .ok bs ∧
        ∃ path, placeOf ⟨"/work/."⟩ path = ⟨"/work/skills/deploy/SKILL.md"⟩ ∧
          bs.find? path = some ⟨path, Artifacts.finished first.content, "a.md"⟩ := by
  obtain ⟨first, rest, houtputs, hfile, hfits⟩ :
      ∃ first rest, deployed.outputs (some "/docs/") "Body" = .ok (first :: rest) ∧
        ((Path.mk "/work/.").join first.target).normal = ⟨"/work/skills/deploy/SKILL.md"⟩ ∧
        ((Artifacts.empty ⟨"/work/."⟩).insert "a.md" first.target
          first.content).toOption.isSome = true :=
    ⟨_, _, rfl, by decide, by decide +kernel⟩
  obtain ⟨bs, hbs⟩ := Option.isSome_iff_exists.1 hfits
  have hinsert := Except.of_toOption hbs
  obtain ⟨hprimary, hstored⟩ := (primaryTarget_of_outputs ⟨"/work/."⟩ houtputs).2 first rest rfl
  obtain ⟨path, hpath, hfound⟩ := hstored (.empty ⟨"/work/."⟩) bs "a.md" rfl hinsert
  exact ⟨first, rest, houtputs, hprimary.trans (congrArg some hfile), bs, hinsert, path,
    hpath.trans hfile, (hfound path).trans (if_pos rfl)⟩

end Template
end AgentDocs
