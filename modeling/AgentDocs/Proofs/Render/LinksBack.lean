import AgentDocs.Proofs.Path.NormalForm
import AgentDocs.Proofs.Render.Flattened
import AgentDocs.Proofs.Render.Imports

/-! # Links lead back

A link is the way from the directory to which a document is written to a file. The text of the link
is all that is left of the way, and it leads from the directory to the file again. -/
namespace AgentDocs
open Effect Markup Store Session

namespace Path

/-- What a way from a directory to a path is: some times out and then in by names. The text that is
written for it is read as the way. -/
structure IsWayTo (dir target way : Path) : Prop where
  leads : (dir.join way).normal = target.normal
  form : ∃ outs names, way.parts = List.replicate outs .up ++ names ∧
    ∀ p ∈ names, p.isName = true
  reread : Path.mk way.toSlashed = way

/-- From any directory there is a way to any path, if both begin at the root. -/
theorem exists_isWayTo {dir target : Path} (hdir : dir.isAbsolute = true)
    (htarget : target.isAbsolute = true) :
    ∃ way, dir.relativeTo? target = some way ∧ IsWayTo dir target way := by
  obtain ⟨common, outer, names, hway, _, _, _, hnames⟩ := exists_relativeTo? hdir htarget
  have hisWay := isWay_of_outer outer.length hnames
  have hparts : (ofParts (List.replicate outer.length .up ++ names)).parts
      = List.replicate outer.length .up ++ names := parts_ofParts hisWay.written
  have hreread : Path.mk (ofParts (List.replicate outer.length .up ++ names)).toSlashed
      = ofParts (List.replicate outer.length .up ++ names) := by
    rw [toSlashed, hparts, hisWay.mk_slashed]
  refine ⟨_, hway, ?_, ?_, hreread⟩
  · have hleads := normal_join_relativeTo? hdir htarget
    rwa [hway, Option.getD_some, hreread] at hleads
  · exact ⟨outer.length, names, hparts, fun p hp => (hnames p hp).1⟩

theorem isAbsolute_within {base : Path} (h : base.isAbsolute = true) (reference : String) :
    (base.within reference).isAbsolute = true := isAbsolute_normal (isAbsolute_join h)

end Path

namespace Scope

/-- A link has the way to the file behind its first character. -/
theorem exists_link (scope : Scope) (file : Path) : ∃ way, scope.link file = "@" ++ way ∧
    (scope.targetDir.isAbsolute = true → file.isAbsolute = true →
      (scope.targetDir.join ⟨way⟩).normal = file.normal) :=
  ⟨_, rfl, Path.normal_join_relativeTo?⟩

end Scope

namespace Session

/-- Whether the results of all files have places from the root on. -/
def TargetsAbsolute (s : Session) : Prop :=
  ∀ p target, PathMap.get? p s.targets = some target → target.isAbsolute = true

/-- Targets that are found for imported files begin at the root if the directory for them does. -/
theorem Grows.targetsAbsolute {r : Renderer} {s t : Session} (h : Grows r s t)
    (hdir : r.importsDir.isAbsolute = true) (hs : s.TargetsAbsolute) : t.TargetsAbsolute := by
  intro p target ht
  cases hknown : PathMap.get? p s.targets with
  | some known =>
    obtain rfl := Option.some.inj ((h.kept p known hknown).symm.trans ht)
    exact hs p known hknown
  | none =>
    obtain ⟨source, n, rfl⟩ := h.candidate p target hknown ht
    obtain ⟨rest, hrest⟩ := Path.isAbsolute_iff.1 hdir
    rw [Path.isAbsolute_iff, Imports.parts_candidate, hrest]
    exact ⟨_, rfl⟩

end Session

/-! ## Links of commands -/

namespace Renderer

/-- The files that may document the package that a snippet names. -/
def documentations (item : Snippet) : List String :=
  Command.packageFiles.map fun file =>
    "vendor/" ++ Text.trimSlashes (item.arguments.getD 0 "") ++ "/" ++ file

theorem within_documentations {item : Snippet} {file : String} (h : file ∈ documentations item)
    (root : Path) : root.within file = (root.child file).normal := by
  obtain ⟨name, _, rfl⟩ := List.mem_map.1 h
  exact Path.within_eq (by simp [Path.isAbsolute])

end Renderer

/-- Where the links of a dispatch lead. The text of a link is behind its first character, and is
read from within the directory to which the document is written. -/
structure Dispatch.LeadsBack (d : Dispatch) : Prop where
  /-- What an `@import` gives is a link to the result of the file. -/
  imported : d.snippet.name = "@import" → ∀ text, d.result = .ok (some text) →
    ∃ reference target way, d.snippet.arguments = [reference] ∧
      PathMap.get? (d.scope.resolve reference) d.after.targets = some target ∧
      text = ("@" ++ way).toList ∧
      (target.isAbsolute = true → (d.scope.targetDir.join ⟨way⟩).normal = target.normal)
  /-- What a `@package` keeps, if it keeps anything, ends with a link to a file that documents the
  package. -/
  documentation : d.snippet.name = "@package" → ∀ text, d.result = .ok text →
    d.after = d.before ∨ ∃ file way, file ∈ Renderer.documentations d.snippet ∧
      (isFile (d.scope.root.child file) d.before.store).1 = .ok true ∧
      d.after = d.before.keep "@package" ⟨Text.trimSlashes (d.snippet.arguments.getD 0 ""),
        "- " ++ d.snippet.arguments.getD 1 "" ++ " - " ++ ("@" ++ way)⟩ ∧
      (d.scope.root.isAbsolute = true →
        (d.scope.targetDir.join ⟨way⟩).normal = (d.scope.root.child file).normal)

namespace Renderer
variable {r : Renderer} {s t : Session} {d : Dispatch}

theorem exists_of_import (himport : r.registry.find? "@import" = some Command.importFile)
    (hd : d.Between r (Grows r) (fun _ => True) s t) (hname : d.snippet.name = "@import")
    {text : List Char} (hresult : d.result = .ok (some text)) :
    ∃ reference target, d.snippet.arguments = [reference] ∧
      PathMap.get? (d.scope.resolve reference) d.after.targets = some target ∧
      text = (d.scope.link target).toList := by
  obtain ⟨⟨depth, hfollow⟩, _, _, _⟩ := hd
  rw [hresult] at hfollow
  obtain ⟨reference, target, hargs, htarget, htext⟩ :=
    follow_dispatch_import (ledger_grows.renderWithin depth) himport hname hfollow
  exact ⟨reference, target, hargs, htarget, Option.some.inj htext⟩

theorem exists_of_package {description : String}
    (hpackage : r.registry.find? "@package" = some (Command.package description))
    (hd : d.Between r (Grows r) (fun _ => True) s t) (hname : d.snippet.name = "@package")
    {text : Option (List Char)} (hresult : d.result = .ok text) :
    d.after = d.before ∨ ∃ file ∈ documentations d.snippet,
      (isFile (d.scope.root.child file) d.before.store).1 = .ok true ∧
      d.after = d.before.keep "@package" ⟨Text.trimSlashes (d.snippet.arguments.getD 0 ""),
        "- " ++ d.snippet.arguments.getD 1 "" ++ " - " ++ d.scope.linkBelowRoot file⟩ := by
  obtain ⟨⟨depth, hfollow⟩, _, _, _⟩ := hd
  rw [hresult] at hfollow
  have hfind : r.registry.find? d.snippet.name = some (Command.package description) :=
    hname ▸ hpackage
  obtain ⟨text, hinvoke⟩ := exists_of_dispatch_ok hfind hfollow
  have hafter := follow_package (o := ⟨d.scope, d.snippet⟩) hname hinvoke
  unfold entryOfPackage? at hafter
  rw [if_pos hname] at hafter
  cases hfound : (documentations d.snippet).find? fun file =>
      (isFile (d.scope.root.child file) d.before.store).1.toOption == some true with
  | none =>
    rw [documentations] at hfound
    simp only [hfound, Option.map_none, keep?] at hafter
    exact .inl hafter
  | some file =>
    have hmem := List.mem_of_find?_eq_some hfound
    have hthere : (isFile (d.scope.root.child file) d.before.store).1.toOption = some true := by
      simpa using List.find?_some hfound
    rw [documentations] at hfound
    simp only [hfound, Option.map_some, keep?] at hafter
    exact .inr ⟨file, hmem, Except.of_toOption hthere, hafter⟩

theorem leadsBack_of_between {description : String}
    (himport : r.registry.find? "@import" = some Command.importFile)
    (hpackage : r.registry.find? "@package" = some (Command.package description))
    (hd : d.Between r (Grows r) (fun _ => True) s t)
    (hdir : d.scope.targetDir.isAbsolute = true) : d.LeadsBack where
  imported hname text hresult := by
    obtain ⟨reference, target, hargs, htarget, htext⟩ := exists_of_import himport hd hname hresult
    obtain ⟨way, hlink, hleads⟩ := d.scope.exists_link target
    exact ⟨reference, target, way, hargs, htarget, hlink ▸ htext, hleads hdir⟩
  documentation hname text hresult := by
    obtain hsame | ⟨file, hfile, hthere, hafter⟩ := exists_of_package hpackage hd hname hresult
    · exact .inl hsame
    · obtain ⟨way, hlink, hleads⟩ := d.scope.exists_link (d.scope.root.within file)
      rw [Scope.linkBelowRoot, hlink] at hafter
      refine .inr ⟨file, way, hfile, hthere, hafter, fun hroot => ?_⟩
      rw [hleads hdir (Path.isAbsolute_within hroot _), within_documentations hfile,
        Path.normal_normal]

/-- Between two paths from the root there is a way, and nothing of it is lost in its text. So each
link that a command writes for a directory from the root on leads back to the file for which it was
written: that of an `@import` to the result of the file, and that of a `@package` to its
documentation. The results are files from the root on if those known before are, and the directory
for them. -/
theorem links_lead_back :
    (∀ dir target : Path, dir.isAbsolute = true → target.isAbsolute = true →
      ∃ way, dir.relativeTo? target = some way ∧ Path.IsWayTo dir target way) ∧
    ∀ (r : Renderer) (description : String) (c : Call) (s : Session),
      r.registry.find? "@import" = some Command.importFile →
      r.registry.find? "@package" = some (Command.package description) →
      ∀ d ∈ r.callDispatches c s, d.scope.targetDir.isAbsolute = true →
        d.LeadsBack ∧ d.scope.root = r.root ∧
        (r.importsDir.isAbsolute = true → s.TargetsAbsolute → d.after.TargetsAbsolute) := by
  refine ⟨fun dir target => Path.exists_isWayTo, ?_⟩
  intro r description c s himport hpackage d hmem hdir
  have hledger : Ledger r (Grows r) := ledger_grows
  have hd := between_callDispatches hledger r.fits_true (c := c) trivial s d hmem
  have ⟨⟨depth, hfollow⟩, ⟨job, _, hscope, _⟩, hbefore, _⟩ := hd
  have hduring := hledger.follow (hledger.renderWithin depth)
    (dispatch r.registry d.scope d.path d.snippet) d.before
  rw [hfollow] at hduring
  exact ⟨leadsBack_of_between himport hpackage hd hdir, congrArg Scope.root hscope,
    (hbefore.trans hduring).targetsAbsolute⟩

/-- A part, and a package with a documentation. -/
def linkedFiles : Memory :=
  (Memory.empty.put ⟨"/work/p.md"⟩ (.text "P")).put ⟨"/work/vendor/acme/README.md"⟩ (.text "Acme")

/-- A document for a directory beside them. -/
def linking : Call :=
  ⟨⟨⟨⟨"/work/a.md"⟩, "a.md"⟩, [], none, true⟩, ⟨"/work/a.md"⟩, ⟨"/work/out/./x"⟩,
    some "\x7b\x7b@import: p.md\x7d\x7d\x7b\x7b@package: acme, Logs\x7d\x7d"⟩

/-- The links go out of the directory first. -/
theorem links_out_of_directory :
    let r := make (.builtin .empty) ⟨"/work"⟩
    let s := start (.memory linkedFiles)
    r.registry.find? "@import" = some Command.importFile ∧
      r.registry.find? "@package" = some (Command.package Command.packageDescription) ∧
      s.TargetsAbsolute ∧ (∃ way, (Path.mk "/work/out/./x").relativeTo? ⟨"/work/p.md"⟩ = some way ∧
        Path.IsWayTo ⟨"/work/out/./x"⟩ ⟨"/work/p.md"⟩ way) ∧
      ∃ package link, r.callDispatches linking s = [package, link] ∧
        package.snippet.name = "@package" ∧ link.snippet.name = "@import" ∧
        (package.after.entriesOf "@package").map (·.text)
          = ["- Logs - @../../vendor/acme/README.md"] ∧
        link.result = .ok (some "@../../ai-docs/imports/p.md".toList) ∧
        package.LeadsBack ∧ link.LeadsBack := by
  intro r s
  have himport : r.registry.find? "@import" = some Command.importFile := rfl
  have hpackage : r.registry.find? "@package"
      = some (Command.package Command.packageDescription) := rfl
  have hshown : (r.callDispatches linking s).map (fun d =>
      (d.snippet.name, d.scope.targetDir.isAbsolute, d.result.toOption)) = [
        ("@package", true, some (some [])),
        ("@import", true, some (some "@../../ai-docs/imports/p.md".toList))] := by
    decide +kernel
  have hkept : (r.callDispatches linking s).head?.map
      (fun d => (d.after.entriesOf "@package").map (·.text))
        = some ["- Logs - @../../vendor/acme/README.md"] := by
    decide +kernel
  obtain ⟨package, rest, hds, hfirst, hrest⟩ := List.map_eq_cons_iff.1 hshown
  obtain ⟨link, rfl, hsecond⟩ := List.map_eq_singleton_iff.1 hrest
  simp only [Prod.mk.injEq] at hfirst hsecond
  rw [hds] at hkept
  have hback : ∀ d ∈ [package, link], d.scope.targetDir.isAbsolute = true → d.LeadsBack :=
    fun d hd hdir => (links_lead_back.2 r _ linking s himport hpackage d (hds ▸ hd) hdir).1
  exact ⟨himport, hpackage, nofun, links_lead_back.1 _ _ rfl rfl, package, link, hds, hfirst.1,
    hsecond.1, Option.some.inj hkept, Except.of_toOption hsecond.2.2, hback _ (by simp) hfirst.2.1,
    hback _ (by simp) hsecond.2.1⟩

end Renderer
end AgentDocs
