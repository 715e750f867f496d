import AgentDocs.Command.Builtin
import AgentDocs.Proofs.Render.Along
import AgentDocs.Proofs.Render.Imports
import Mathlib.Data.List.Pairwise

/-! # Files that imports have placed

An import gives a file its target before the file is rendered, so that the file can refer to itself.
The target stays if the rendering fails, and then later imports of the file are answered with it
although the file is not among the imported ones. Whether it is there depends on nothing but how the
one rendering ended that was asked for when the file was placed. -/
namespace AgentDocs
open Effect Store Session

/-- A target that a file is given by an import, and how the rendering of the file ended then. -/
structure Placing where
  source : Path
  target : Path
  ended : Except RenderError String

/-- The file that is placed, if this is what happens. -/
def Moment.placing? (r : Renderer) (m : Moment) : Option Placing :=
  match m.event with
  | .action (.importFile template source) =>
    match Renderer.placeImport r source m.session with
    | (.ok (target, true), s) =>
      some ⟨source, target, (Renderer.renderWithin r m.depth (r.importJob template source) s).1⟩
    | _ => none
  | _ => none

/-- The files that are placed, in the order in which they are. -/
def Trace.placings (r : Renderer) (trace : Trace) : List Placing :=
  trace.filterMap (Moment.placing? r)

/-- The files placed between two sessions account for the new targets and the new imported files of
the second one. -/
structure Accounts (r : Renderer) (s : Session) (trace : Trace) (t : Session) : Prop
    extends Grows r s t where
  given : ∀ a ∈ trace.placings r, PathMap.get? a.source s.targets = none ∧
    PathMap.get? a.source t.targets = some a.target
  placed : ∀ p k, PathMap.get? p s.targets = none → PathMap.get? p t.targets = some k →
    ∃ a ∈ trace.placings r, a.source.parts = p.parts
  once : (trace.placings r).Pairwise fun a b => a.source.parts ≠ b.source.parts
  rendered : ∀ a ∈ trace.placings r, ∀ content, a.ended = .ok content →
    ∃ f ∈ t.imported, f.target = a.target ∧ f.content = content
  origin : ∀ f ∈ t.imported, f ∈ s.imported ∨
    ∃ a ∈ trace.placings r, a.target = f.target ∧ a.ended = .ok f.content

namespace Accounts
variable {r : Renderer} {s t u : Session} {trace later : Trace}

/-- Where no file is placed, targets and imported files stay. -/
theorem of_placings_eq_nil (htrace : trace.placings r = []) (htargets : s.targets = t.targets)
    (himported : s.imported = t.imported) : Accounts r s trace t where
  toGrows := grows_of_eq htargets himported
  given a ha := by
    rw [htrace] at ha
    cases ha
  placed p k hs ht := by
    rw [← htargets, hs] at ht
    cases ht
  once := htrace ▸ List.Pairwise.nil
  rendered a ha := by
    rw [htrace] at ha
    cases ha
  origin f hf := .inl (himported ▸ hf)

theorem append (h : Accounts r s trace t) (hlater : Accounts r t later u) :
    Accounts r s (trace ++ later) u := by
  have hplacings : Trace.placings r (trace ++ later) = trace.placings r ++ later.placings r :=
    List.filterMap_append
  have hgrows : Grows r s u := h.toGrows.trans hlater.toGrows
  refine ⟨hgrows, fun a ha => ?_, fun p k hs hu => ?_, ?_, fun a ha content hended => ?_,
    fun f hf => ?_⟩
  · rw [hplacings] at ha
    rcases List.mem_append.1 ha with ha | ha
    · exact ⟨(h.given a ha).1, hlater.kept _ _ (h.given a ha).2⟩
    · refine ⟨?_, (hlater.given a ha).2⟩
      cases hs : PathMap.get? a.source s.targets with
      | none => rfl
      | some k =>
        have hnone := (hlater.given a ha).1
        rw [h.kept _ _ hs] at hnone
        cases hnone
  · rw [hplacings]
    cases ht : PathMap.get? p t.targets with
    | none =>
      obtain ⟨a, ha, hparts⟩ := hlater.placed p k ht hu
      exact ⟨a, List.mem_append_right _ ha, hparts⟩
    | some k' =>
      obtain ⟨a, ha, hparts⟩ := h.placed p k' hs ht
      exact ⟨a, List.mem_append_left _ ha, hparts⟩
  · -- a file that is placed later has no target before
    rw [hplacings]
    refine List.pairwise_append.2 ⟨h.once, hlater.once, fun a ha b hb hparts => ?_⟩
    have hb' := (hlater.given b hb).1
    rw [← PathMap.get?_congr hparts, (h.given a ha).2] at hb'
    cases hb'
  · rw [hplacings] at ha
    rcases List.mem_append.1 ha with ha | ha
    · obtain ⟨f, hf, hfile⟩ := h.rendered a ha content hended
      exact ⟨f, hlater.imported.subset hf, hfile⟩
    · exact hlater.rendered a ha content hended
  · rw [hplacings]
    rcases hlater.origin f hf with hf | ⟨a, ha, hfile⟩
    · refine (h.origin f hf).imp_right ?_
      rintro ⟨a, ha, hfile⟩
      exact ⟨a, List.mem_append_left _ ha, hfile⟩
    · exact .inr ⟨a, List.mem_append_right _ ha, hfile⟩

/-- An imported file that has the target of a placed one is this one, and its rendering ended
well. -/
theorem ended_of_mem_imported (h : Accounts r s trace t) (hs : s.imported = []) {a : Placing}
    (ha : a ∈ trace.placings r) {f : Imported} (hf : f ∈ t.imported)
    (hparts : f.target.parts = a.target.parts) : a.ended = .ok f.content := by
  obtain ⟨b, hb, htarget, hended⟩ : ∃ b ∈ trace.placings r, b.target = f.target ∧
      b.ended = .ok f.content := by
    refine (h.origin f hf).resolve_left ?_
    rw [hs]
    exact List.not_mem_nil
  by_cases hsame : b = a
  · exact hsame ▸ hended
  · -- different files have targets in different places
    have : Std.Symm fun a b : Placing => a.source.parts ≠ b.source.parts := ⟨fun _ _ => Ne.symm⟩
    have hsource : b.source.parts ≠ a.source.parts := h.once.forall hb ha hsame
    have hapart := h.apart a.source a.target (h.given a ha).1 (h.given a ha).2 b.source b.target
      hsource (h.given b hb).2
    exact absurd (htarget ▸ hparts) hapart

end Accounts

namespace Renderer
variable {r : Renderer}

/-- A file that is there and has no target yet is placed. -/
theorem placings_of_placed {s t : Session} {source target : Path}
    (h : placeImport r source s = (.ok (target, true), t)) (depth : Nat) (template : TemplateScope)
    (trace : Trace) :
    Trace.placings r (⟨s, depth, .action (.importFile template source)⟩ :: trace)
      = ⟨source, target, (renderWithin r depth (r.importJob template source) t).1⟩
        :: trace.placings r := by
  rw [Trace.placings, List.filterMap_cons, Moment.placing?]
  simp only [h]
  rfl

theorem placings_of_not_placed {s t : Session} {source : Path}
    {result : Except CommandError (Path × Bool)} (h : placeImport r source s = (result, t))
    (hresult : ∀ target, result ≠ .ok (target, true)) (depth : Nat) (template : TemplateScope) :
    Trace.placings r [⟨s, depth, .action (.importFile template source)⟩] = [] := by
  rw [Trace.placings, List.filterMap_cons, Moment.placing?]
  simp only [h]
  match result, hresult with
  | .error e, _ => rfl
  | .ok (target, false), _ => rfl
  | .ok (target, true), hresult => exact absurd rfl (hresult target)

theorem placings_sourceTrace (s : Session) (depth : Nat) (job : Job) :
    (sourceTrace depth job s).placings r = [] := by
  unfold sourceTrace
  split
  · rfl
  · split <;> rfl

/-- At the end of an import the file is noted, if its rendering ended well. -/
theorem mem_imported_importing {template : TemplateScope} {target : Path}
    {out : Except RenderError String × Session} {f : Imported} :
    f ∈ (importing template target out).2.imported ↔
      f ∈ out.2.imported ∨ ∃ content, out.1 = .ok content ∧
        f = ⟨target, content, template.source.relative⟩ := by
  obtain ⟨result, s⟩ := out
  cases result with
  | error e => simp [importing]
  | ok content => simp [importing]

theorem targets_importing (template : TemplateScope) (target : Path)
    (out : Except RenderError String × Session) :
    (importing template target out).2.targets = out.2.targets := by
  obtain ⟨result, s⟩ := out
  cases result <;> rfl

theorem grows_importing (template : TemplateScope) (target : Path)
    (out : Except RenderError String × Session) :
    Grows r out.2 (importing template target out).2 := by
  obtain ⟨result, s⟩ := out
  cases result with
  | error e => exact grows_of_eq rfl rfl
  | ok content => exact ledger_grows.add s _

/-- A file that is placed accounts for its target, and for itself if its rendering ends well; for
the rest the files do that are placed meanwhile. -/
theorem accounts_of_placed {s t : Session} {depth : Nat} {template : TemplateScope}
    {source target : Path} {out : Except RenderError String × Session} {trace : Trace}
    (hplace : placeImport r source s = (.ok (target, true), t))
    (hout : renderWithin r depth (r.importJob template source) t = out)
    (h : Accounts r t trace out.2) :
    Accounts r s (⟨s, depth, .action (.importFile template source)⟩ :: trace)
      (importing template target out).2 := by
  have hplacings := placings_of_placed hplace depth template trace
  rw [hout] at hplacings
  obtain ⟨store, ⟨_, hp⟩ | ⟨_, _, hp⟩ | ⟨hnew, hp⟩⟩ := placeImport_cases r source s <;>
    rw [hp] at hplace <;> cases hplace
  have hplaced : Grows r s { s with
      store := store
      targets := PathMap.insert source (r.freeFor source s) s.targets } :=
    (grows_place s source hnew).trans (grows_of_eq rfl rfl)
  have hend := grows_importing (r := r) template (r.freeFor source s) out
  -- no other place has a new target meanwhile, and this one has no other
  have hother : ∀ p : Path, source.parts ≠ p.parts →
      PathMap.get? p (PathMap.insert source (r.freeFor source s) s.targets)
        = PathMap.get? p s.targets := fun p hne => PathMap.get?_insert_of_ne hne _ _
  have hsource : ∀ a ∈ trace.placings r, source.parts ≠ a.source.parts := by
    intro a ha hparts
    have hnone := (h.given a ha).1
    rw [PathMap.get?_insert_of_same hparts] at hnone
    cases hnone
  refine ⟨(hplaced.trans h.toGrows).trans hend, ?_, fun p k hs hk => ?_, ?_, ?_, fun f hf => ?_⟩
  · rw [hplacings]
    refine List.forall_mem_cons.2 ⟨⟨hnew, ?_⟩, fun a ha => ⟨?_, ?_⟩⟩
    · exact hend.kept _ _ (h.kept _ _ (PathMap.get?_insert_of_same rfl _ _))
    · rw [← hother a.source (hsource a ha)]
      exact (h.given a ha).1
    · exact hend.kept _ _ (h.given a ha).2
  · rw [hplacings]
    by_cases hparts : source.parts = p.parts
    · exact ⟨_, List.mem_cons_self, hparts⟩
    · rw [targets_importing] at hk
      obtain ⟨a, ha, hap⟩ := h.placed p k ((hother p hparts).trans hs) hk
      exact ⟨a, List.mem_cons_of_mem _ ha, hap⟩
  · rw [hplacings]
    exact List.pairwise_cons.2 ⟨hsource, h.once⟩
  · rw [hplacings]
    refine List.forall_mem_cons.2 ⟨fun content hended => ?_, fun a ha content hended => ?_⟩
    · exact ⟨_, mem_imported_importing.2 (.inr ⟨content, hended, rfl⟩), rfl, rfl⟩
    · obtain ⟨f, hf, hfile⟩ := h.rendered a ha content hended
      exact ⟨f, mem_imported_importing.2 (.inl hf), hfile⟩
  · rw [hplacings]
    rcases mem_imported_importing.1 hf with hf | ⟨content, hended, rfl⟩
    · refine (h.origin f hf).imp_right ?_
      rintro ⟨a, ha, hfile⟩
      exact ⟨a, List.mem_cons_of_mem _ ha, hfile⟩
    · exact .inr ⟨_, List.mem_cons_self, rfl, hended⟩

theorem traced_accounts : Traced r (Accounts r) where
  append := .append
  quiet _ _ hsame := .of_placings_eq_nil rfl hsame.targets hsame.imported
  request _ _ _ := .of_placings_eq_nil rfl rfl rfl
  source s depth job := by
    have hsame := sameLedger_sourceOf job s
    exact .of_placings_eq_nil (placings_sourceTrace s depth job) hsame.targets hsame.imported
  plain s depth inner a ha := by
    cases a with
    | render | importFile => exact ha.elim
    | ask | keep | kept | mention | note => exact .of_placings_eq_nil rfl rfl rfl
  render _ _ _ := .of_placings_eq_nil rfl rfl rfl
  placed {s t depth template source result} hplace hresult := by
    have hnil := placings_of_not_placed hplace hresult depth template
    obtain ⟨store, ⟨_, hp⟩ | ⟨_, _, hp⟩ | ⟨_, hp⟩⟩ := placeImport_cases r source s <;>
      rw [hp] at hplace <;> cases hplace
    · exact .of_placings_eq_nil hnil rfl rfl
    · exact .of_placings_eq_nil hnil rfl rfl
    · exact absurd rfl (hresult _)
  given := accounts_of_placed

/-! ## What imports refer to -/

theorem after_append (calls later : List Call) (s : Session) :
    r.after (calls ++ later) s = r.after later (r.after calls s) := List.foldl_append

/-- In any documents that are rendered one after the other, whether they failed or not, every import
that is answered refers to the known target of its file or to the one that the file was given when
an import placed it. The imported files in the end are those placed files whose rendering ended
well, and no other file has the target of one whose rendering failed. -/
theorem imports_after (r : Renderer) (store : Store) (known : List (Path × Path))
    (calls later : List Call) (c : Call)
    (hfind : r.registry.find? "@import" = some Command.importFile) :
    let begun := (start store).withTargets known
    let ended := r.after (calls ++ c :: later) begun
    let placings := Trace.placings r (r.callsTrace (calls ++ c :: later) begun)
    (∀ d ∈ r.callDispatches c (r.after calls begun), d.snippet.name = "@import" →
      ∀ text, d.result = .ok text → ∃ reference target, d.snippet.arguments = [reference] ∧
        text = some (d.scope.link target).toList ∧
        (PathMap.get? (d.scope.resolve reference) begun.targets = some target ∨
          ∃ a ∈ placings, a.source.parts = (d.scope.resolve reference).parts ∧
            a.target = target)) ∧
    (∀ f ∈ ended.imported, ∃ a ∈ placings, a.target = f.target ∧ a.ended = .ok f.content) ∧
    ∀ a ∈ placings, match a.ended with
      | .ok content => ∃ f ∈ ended.imported, f.target = a.target ∧ f.content = content
      | .error _ => ∀ f ∈ ended.imported, f.target.parts ≠ a.target.parts := by
  intro begun ended placings
  have haccounts : Accounts r begun (r.callsTrace (calls ++ c :: later) begun) ended :=
    traced_accounts.callsTrace _ _
  refine ⟨fun d hd hname text htext => ?_, fun f hf => ?_, fun a ha => ?_⟩
  · have hbetween := between_callDispatches ledger_grows r.fits_true trivial _ d hd
    obtain ⟨depth, hfollowed⟩ := hbetween.followed
    rw [htext] at hfollowed
    obtain ⟨reference, target, hargs, htarget, rfl⟩ := follow_dispatch_import
      (fun job => ledger_grows.renderWithin depth job) hfind hname hfollowed
    refine ⟨reference, target, hargs, rfl, ?_⟩
    -- the target of the file stays to the end
    have hlater : Grows r (r.call c (r.after calls begun)).2 ended := by
      change Grows r _ (r.after (calls ++ c :: later) begun)
      rw [after_append]
      exact (traced_accounts.callsTrace later _).toGrows
    have hended := hlater.kept _ _ (hbetween.after.kept _ _ htarget)
    cases hbegun : PathMap.get? (d.scope.resolve reference) begun.targets with
    | some k => exact .inl ((haccounts.kept _ _ hbegun).symm.trans hended)
    | none =>
      obtain ⟨a, ha, hparts⟩ := haccounts.placed _ _ hbegun hended
      have hgiven := (haccounts.given a ha).2
      rw [PathMap.get?_congr hparts, hended] at hgiven
      exact .inr ⟨a, ha, hparts, (Option.some.inj hgiven).symm⟩
  · exact (haccounts.origin f hf).resolve_left List.not_mem_nil
  · cases hresult : a.ended with
    | ok content => exact haccounts.rendered a ha content hresult
    | error e =>
      intro f hf hparts
      have hok := haccounts.ended_of_mem_imported rfl ha hf hparts
      rw [hresult] at hok
      cases hok

/-- A file to import that needs a name. -/
def namedPart : Memory := Memory.empty.put ⟨"/work/_p.md"⟩ (.text "\x7b\x7bname\x7d\x7d")

/-- A document that imports it. -/
def importingPart (parameters : Parameters) : Call :=
  ⟨⟨⟨⟨"/work/a.md"⟩, "a.md"⟩, parameters, none, true⟩, ⟨"/work/a.md"⟩, ⟨"/work"⟩,
    some "\x7b\x7b@import: _p.md\x7d\x7d"⟩

/-- Without the name the document fails, when the file is placed and not rendered. With it, the
document refers to the file. -/
theorem refers_to_failed_part :
    let r := make (.builtin .empty) ⟨"/work"⟩
    let begun := (start (.memory namedPart)).withTargets []
    let used := r.after [importingPart []] begun
    (r.call (importingPart []) begun).1 = .error (.ofCommand ⟨"/work/a.md"⟩ "@import"
        (.ofRender (.unresolvedVariable ⟨"/work/_p.md"⟩ "name"))) ∧
      (r.call (importingPart [("name", "x")]) used).1 = .ok "@ai-docs/imports/_p.md" ∧
      begun.targets = [] ∧ (r.call (importingPart [("name", "x")]) used).2.imported = [] := by
  decide +kernel

/-- The import of that document is answered with the target of a file whose rendering failed. -/
theorem failed_part_placed :
    let r := make (.builtin .empty) ⟨"/work"⟩
    let begun := (start (.memory namedPart)).withTargets []
    let calls := [importingPart []] ++ [importingPart [("name", "x")]]
    r.registry.find? "@import" = some Command.importFile ∧
      ∃ a ∈ Trace.placings r (r.callsTrace calls begun),
        a.source.parts = Path.parts ⟨"/work/_p.md"⟩ ∧ ∃ e, a.ended = .error e := by
  intro r begun calls
  have hfind : r.registry.find? "@import" = some Command.importFile := rfl
  obtain ⟨hrefers, _, hplacings⟩ := imports_after r (.memory namedPart) [] [importingPart []] []
    (importingPart [("name", "x")]) hfind
  obtain ⟨d, hd, hname, hargument, hresolve, hanswer⟩ : ∃ d ∈ r.callDispatches
      (importingPart [("name", "x")]) (r.after [importingPart []] begun),
      d.snippet.name = "@import" ∧ d.snippet.arguments = ["_p.md"] ∧
      d.scope.resolve "_p.md" = ⟨"/work/_p.md"⟩ ∧
      d.result = .ok (some "@ai-docs/imports/_p.md".toList) := by
    decide +kernel
  obtain ⟨reference, target, hreference, _, hbegun | ⟨a, ha, hsource, _⟩⟩ :=
    hrefers d hd hname _ hanswer
  · have hnone : begun.targets = [] := rfl
    rw [hnone] at hbegun
    cases hbegun
  · have himported : (r.after calls begun).imported = [] := by decide +kernel
    rw [hargument] at hreference
    rw [← List.head_eq_of_cons_eq hreference, hresolve] at hsource
    refine ⟨hfind, a, ha, hsource, ?_⟩
    have hended := hplacings a ha
    cases hresult : a.ended with
    | error e => exact ⟨e, rfl⟩
    | ok content =>
      rw [hresult] at hended
      obtain ⟨f, hf, _⟩ := hended
      rw [himported] at hf
      cases hf

end Renderer
end AgentDocs
