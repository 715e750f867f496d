import AgentDocs.Proofs.Command.Orderly
import AgentDocs.Proofs.Path.Relative
import AgentDocs.Proofs.Render.Dispatches
import AgentDocs.Proofs.Render.FreeTarget

/-! # Imported files and their targets

A file that is imported is given a target before it is rendered, so that links to it can be written
meanwhile. The target differs from all others and is never changed. If the rendering in which it was
given ends well, and the commands pass failures on, then the file was rendered for it. -/
namespace AgentDocs
open Effect Store Session Markup

theorem Imports.rooted_candidate {dir : Path} (h : dir.Rooted) (source : Path) (n : Nat) :
    (candidate dir source n).Rooted := by
  have hparts := parts_candidate dir source n
  refine h.append (fun p hp => ⟨?_, ?_⟩) hparts
  · split at hp
    · cases hp
    · rw [List.mem_singleton.1 hp]
      rfl
  · exact Path.proper_of_mem_parts (p := candidate dir source n)
      (hparts ▸ List.mem_append_right _ hp)

namespace Session

/-- How the targets of files become more. -/
structure Grows (r : Renderer) (s t : Session) : Prop where
  kept : ∀ p k, PathMap.get? p s.targets = some k → PathMap.get? p t.targets = some k
  /-- New targets are candidates for files. -/
  candidate : ∀ p k, PathMap.get? p s.targets = none → PathMap.get? p t.targets = some k →
    ∃ source n, k = Imports.candidate r.importsDir source n
  /-- New targets differ from all others. -/
  apart : ∀ p k, PathMap.get? p s.targets = none → PathMap.get? p t.targets = some k →
    ∀ q l, q.parts ≠ p.parts → PathMap.get? q t.targets = some l → l.parts ≠ k.parts
  imported : s.imported <+: t.imported

/-- How they do in a rendering that ends well: for each new one a file was rendered. -/
structure Settles (r : Renderer) (s t : Session) : Prop extends Grows r s t where
  settled : ∀ p k, PathMap.get? p s.targets = none → PathMap.get? p t.targets = some k →
    ∃ f ∈ t.imported, f.target = k

variable {r : Renderer} {s t u : Session}

theorem settles_of_eq (htargets : s.targets = t.targets) (himported : s.imported = t.imported) :
    Settles r s t := by
  have hnew : ∀ p k, PathMap.get? p s.targets = none → PathMap.get? p t.targets ≠ some k := by
    intro p k hnone
    rw [← htargets, hnone]
    nofun
  exact ⟨⟨fun p k h => htargets ▸ h, fun p k h h' => absurd h' (hnew p k h),
    fun p k h h' => absurd h' (hnew p k h), himported ▸ List.prefix_refl _⟩,
    fun p k h h' => absurd h' (hnew p k h)⟩

theorem grows_of_eq (htargets : s.targets = t.targets) (himported : s.imported = t.imported) :
    Grows r s t := (settles_of_eq htargets himported).toGrows

theorem SameLedger.settles (h : SameLedger s t) : Settles r s t :=
  settles_of_eq h.targets h.imported

theorem Grows.trans (hst : Grows r s t) (htu : Grows r t u) : Grows r s u where
  kept p k h := htu.kept p k (hst.kept p k h)
  candidate p k hs hu := by
    cases ht : PathMap.get? p t.targets with
    | none => exact htu.candidate p k ht hu
    | some k' =>
      obtain rfl := Option.some.inj ((htu.kept p k' ht).symm.trans hu)
      exact hst.candidate p k' hs ht
  apart p k hs hu q l hq hl := by
    cases ht : PathMap.get? p t.targets with
    | none => exact htu.apart p k ht hu q l hq hl
    | some k' =>
      obtain rfl := Option.some.inj ((htu.kept p k' ht).symm.trans hu)
      cases hq' : PathMap.get? q t.targets with
      | none => exact (htu.apart q l hq' hl p k' (Ne.symm hq) hu).symm
      | some l' =>
        obtain rfl := Option.some.inj ((htu.kept q l' hq').symm.trans hl)
        exact hst.apart p k' hs ht q l' hq hq'
  imported := hst.imported.trans htu.imported

theorem Settles.trans (hst : Settles r s t) (htu : Settles r t u) : Settles r s u where
  toGrows := hst.toGrows.trans htu.toGrows
  settled p k hs hu := by
    cases ht : PathMap.get? p t.targets with
    | none => exact htu.settled p k ht hu
    | some k' =>
      obtain rfl := Option.some.inj ((htu.kept p k' ht).symm.trans hu)
      obtain ⟨f, hf, hk⟩ := hst.settled p k' hs ht
      exact ⟨f, htu.imported.subset hf, hk⟩

instance : Trans (Grows r) (Grows r) (Grows r) := ⟨Grows.trans⟩

instance : Trans (Settles r) (Settles r) (Settles r) := ⟨Settles.trans⟩

instance : Std.Refl (Settles r) := ⟨fun _ => settles_of_eq rfl rfl⟩

/-- A new file is given a target that no other has. -/
theorem grows_place (s : Session) (source : Path)
    (hnew : PathMap.get? source s.targets = none) :
    Grows r s { s with targets := PathMap.insert source (r.freeFor source s) s.targets } := by
  obtain ⟨n, _, hfree, hnone, _⟩ :=
    Imports.freeTarget_spec (s.targets.map (·.2)) r.importsDir source
  change r.freeFor source s = _ at hfree
  -- only the file itself has a new target
  have honly : ∀ p k, PathMap.get? p s.targets = none →
      PathMap.get? p (PathMap.insert source (r.freeFor source s) s.targets) = some k →
      source.parts = p.parts ∧ k = r.freeFor source s := by
    intro p k hp hk
    rw [PathMap.get?_insert] at hk
    split at hk
    · rename_i hparts
      exact ⟨hparts, (Option.some.inj hk).symm⟩
    · rw [hp] at hk
      cases hk
  refine ⟨fun p k hk => ?_, fun p k hp hk => ?_, fun p k hp hk q l hq hl => ?_,
    List.prefix_refl _⟩
  · rw [PathMap.get?_insert_of_ne fun he => ?_]
    · exact hk
    · rw [PathMap.get?_congr he, hk] at hnew
      cases hnew
  · obtain ⟨_, rfl⟩ := honly p k hp hk
    exact ⟨source, n, hfree⟩
  · obtain ⟨hparts, rfl⟩ := honly p k hp hk
    change PathMap.get? q (PathMap.insert source (r.freeFor source s) s.targets) = some l at hl
    rw [PathMap.get?_insert_of_ne fun he => hq (he.symm.trans hparts)] at hl
    obtain ⟨q', _, hmem⟩ := PathMap.exists_mem_of_get? hl
    rw [hfree]
    exact (hnone l (List.mem_map.2 ⟨(q', l), hmem, rfl⟩)).symm

theorem ledger_grows : Ledger r (Grows r) where
  trans := Grows.trans
  quiet h := (SameLedger.settles h).toGrows
  place := grows_place
  add s _ := { (grows_of_eq rfl rfl : Grows r s s) with imported := List.prefix_append _ _ }
  mention _ _ := grows_of_eq rfl rfl

end Session

/-- An import needs one argument, and answers with a link to the target of the file. -/
theorem Command.invoke_importFile (scope : Scope) (args : List String) :
    (∃ e, importFile.invoke scope args = .fail e) ∨
      ∃ reference, args = [reference] ∧ importFile.invoke scope args =
        .act (.importFile scope.template (scope.resolve reference)) fun x =>
          Script.ofExcept x >>= fun target => pure (scope.link target) :=
  match args with
  | [] => .inl ⟨_, rfl⟩
  | [reference] => .inr ⟨reference, rfl, rfl⟩
  | _ :: _ :: _ => .inl ⟨_, rfl⟩

namespace Renderer
variable {r : Renderer} {inner : Job → Rendering String}

/-! ## Renderings that end well -/

theorem settles_importTarget (hok : ∀ job, Arrives (Settles r) (inner job))
    (template : TemplateScope) (source : Path) :
    Arrives (Settles r) (importTarget r inner template source) := by
  intro s target t h
  obtain ⟨store, ⟨_, hp⟩ | ⟨known, _, hp⟩ | ⟨hnew, hp⟩⟩ := placeImport_cases r source s
  · rw [importTarget_of_error hp] at h
    cases h
  · rw [importTarget_of_ok hp] at h
    cases h
    exact settles_of_eq rfl rfl
  rw [importTarget_of_ok hp, if_pos rfl] at h
  cases hin : inner (r.importJob template source) { s with
      store := store
      targets := PathMap.insert source (r.freeFor source s) s.targets } with
  | mk result u =>
    rw [hin] at h
    cases result with
    | error e => cases h
    | ok content =>
      cases h
      have hplaced : Grows r s { s with
          store := store
          targets := PathMap.insert source (r.freeFor source s) s.targets } :=
        (grows_place s source hnew).trans (grows_of_eq rfl rfl)
      have hinner := hok _ _ _ _ hin
      refine ⟨hplaced.trans (hinner.toGrows.trans ?_), fun p k hs hk => ?_⟩
      · exact ledger_grows.add u _
      · by_cases hparts : source.parts = p.parts
        · have hgiven := hinner.kept p _ (PathMap.get?_insert_of_same hparts _ _)
          obtain rfl := Option.some.inj (hgiven.symm.trans hk)
          exact ⟨_, List.mem_append_right _ List.mem_cons_self, rfl⟩
        · obtain ⟨f, hf, hfk⟩ := hinner.settled p k
            ((PathMap.get?_insert_of_ne hparts _ _).trans hs) hk
          exact ⟨f, List.mem_append_left _ hf, hfk⟩

theorem settles_perform (hok : ∀ job, Arrives (Settles r) (inner job)) (a : Action) (s : Session)
    (h : ¬a.Failed (perform r inner a s).1) : Settles r s (perform r inner a s).2 := by
  have hresult : ∀ {ε α : Type} {x : Within ε α}, Arrives (Settles r) x →
      (¬∃ e, (x s).1 = .error e) → Settles r s (x s).2 := by
    intro ε α x hx hno
    cases hout : x s with
    | mk result t =>
      cases result with
      | error e => exact absurd ⟨e, by rw [hout]⟩ hno
      | ok a => exact hx s a t hout
  cases a with
  | render job => exact hresult (hok job) h
  | importFile template p => exact hresult (settles_importTarget hok template p) h
  | ask question => exact (sameLedger_onStore _ s).settles
  | keep | kept | mention | note => exact settles_of_eq rfl rfl

/-- A script that fails in any case gives no result. -/
theorem follow_of_fails {ε α : Type} {script : Script ε α} (h : script.Fails) (s : Session)
    (a : α) : (follow r inner script s).1 ≠ .ok a := by
  induction script generalizing s with
  | done b => exact h.elim
  | fail e => nofun
  | act action next ih => exact ih _ (h _) _

theorem settles_follow (hok : ∀ job, Arrives (Settles r) (inner job)) {ε α : Type}
    {script : Script ε α}
    (h : script.PassesOn) : Arrives (Settles r) (follow r inner script) := by
  induction script with
  | done a =>
    intro s b t hb
    cases hb
    exact settles_of_eq rfl rfl
  | fail e => nofun
  | act action next ih =>
    intro s b u hb
    obtain ⟨hfails, hpasses⟩ := h (perform r inner action s).1
    by_cases hfailed : action.Failed (perform r inner action s).1
    · exact absurd (congrArg (·.1) hb) (follow_of_fails (hfails hfailed) _ b)
    · exact (settles_perform hok action s hfailed).trans (ih _ hpasses _ b u hb)

theorem passesOn_dispatch {registry : Registry} (h : ∀ c ∈ registry, c.Orderly) (scope : Scope)
    (path : Path) (snippet : Snippet) : (dispatch registry scope path snippet).PassesOn := by
  unfold dispatch
  split
  · trivial
  · rename_i command hfind
    have horderly := h command (Registry.mem_of_find? hfind).1
    exact ((horderly.passesOn scope snippet.arguments).mapError _).bind fun _ => trivial

theorem passesOn_scriptOf (h : ∀ c ∈ r.registry, c.Orderly) (job : Job) (text : List Char) :
    (r.scriptOf job text).PassesOn := by
  refine (Script.passesOn_ofExcept _).bind fun filled => ?_
  split
  · exact Script.passesOn_splice (passesOn_dispatch h _ _) _ _
  · trivial

theorem settles_between {ε α : Type} {before after : Session → Session} {act : Within ε α}
    (hbefore : ∀ s, Settles r s (before s)) (hafter : ∀ s, Settles r s (after s))
    (h : Arrives (Settles r) act) : Arrives (Settles r) (Within.between before after act) := by
  intro s a u ha
  cases hout : act (before s) with
  | mk result t =>
    have hbetween : Within.between before after act s = (result, after t) := by
      rw [Within.between, hout]
    rw [hbetween] at ha
    cases ha
    exact (hbefore s).trans ((h _ _ _ hout).trans (hafter t))

theorem settles_renderText (hok : ∀ job, Arrives (Settles r) (inner job))
    (h : ∀ c ∈ r.registry, c.Orderly) (job : Job) (text : List Char) : Arrives (Settles r) (renderText r inner job text) := by
  have hexpand : Arrives (Settles r) (expandText r inner job text) :=
    (settles_follow hok (passesOn_scriptOf h job text)).bind fun _ s _ t ht => by
      cases ht
      exact settles_of_eq rfl rfl
  unfold renderText
  split
  · exact hexpand
  · exact settles_between (fun _ => settles_of_eq rfl rfl) (fun _ => settles_of_eq rfl rfl)
      (hexpand.bind fun text =>
        Moves.arrives fun s => (sameLedger_finishDocument r.registry text s).settles)

theorem settles_renderOpen (hok : ∀ job, Arrives (Settles r) (inner job))
    (h : ∀ c ∈ r.registry, c.Orderly) (job : Job) :
    Arrives (Settles r) (renderOpen r inner job) := by
  have hsource : Arrives (Settles r) (sourceOf job) :=
    Moves.arrives fun s => (sameLedger_sourceOf job s).settles
  exact hsource.bind fun text => (settles_renderText hok h job text).bind fun _ s _ t ht => by
    cases ht
    exact settles_of_eq rfl rfl

/-- After a rendering that ended well, all files were rendered that are given targets in it. -/
theorem settles_renderWithin (h : ∀ c ∈ r.registry, c.Orderly)
    (depth : Nat) (job : Job) : Arrives (Settles r) (renderWithin r depth job) := by
  induction depth generalizing job with
  | zero =>
    intro s text t ht
    cases hopen : isOpen job s with
    | true =>
      rw [renderWithin_of_isOpen hopen] at ht
      cases ht
    | false =>
      rw [renderWithin_zero hopen] at ht
      cases ht
  | succ depth ih =>
    intro s text t ht
    cases hopen : isOpen job s with
    | true =>
      rw [renderWithin_of_isOpen hopen] at ht
      cases ht
    | false =>
      rw [renderWithin_succ hopen] at ht
      refine settles_between ?_ ?_ (settles_renderOpen ih h job) s text t ht
      · exact fun _ => settles_of_eq rfl rfl
      · exact fun _ => settles_of_eq rfl rfl

theorem settles_call (h : ∀ c ∈ r.registry, c.Orderly) (c : Call) :
    Arrives (Settles r) (r.call c) := by
  intro s text t ht
  rw [call_apply] at ht
  exact settles_renderWithin h _ _ s text t ht

/-! ## Links to imported files -/

/-- Files are rendered for directories from the root only. -/
theorem fits_of_orderly (hdir : r.importsDir.isAbsolute = true)
    (h : ∀ c ∈ r.registry, c.Orderly) : r.Fits fun job => job.targetDir.isAbsolute = true := by
  intro job hjob c hc args
  have hanchored := (h c hc).anchored (r.scopeOf job) args (Path.isAbsolute_normal hjob)
  refine hanchored.transfer (fun a ha => ?_) fun _ _ => id
  cases a with
  | render job => exact ha
  | importFile template source => exact hdir
  | _ => trivial

/-- What an import answers is the target of the file from then on. -/
theorem get?_of_importTarget (hin : ∀ job, Moves (Grows r) (inner job)) {template : TemplateScope}
    {source target : Path} {s t : Session}
    (h : importTarget r inner template source s = (.ok target, t)) :
    PathMap.get? source t.targets = some target := by
  obtain ⟨store, ⟨_, hp⟩ | ⟨known, hknown, hp⟩ | ⟨_, hp⟩⟩ := placeImport_cases r source s
  · rw [importTarget_of_error hp] at h
    cases h
  · rw [importTarget_of_ok hp] at h
    cases h
    exact hknown
  rw [importTarget_of_ok hp, if_pos rfl] at h
  have hinner := hin (r.importJob template source) { s with
    store := store
    targets := PathMap.insert source (r.freeFor source s) s.targets }
  cases hout : inner (r.importJob template source) { s with
      store := store
      targets := PathMap.insert source (r.freeFor source s) s.targets } with
  | mk result u =>
    rw [hout] at h hinner
    cases result with
    | error e => cases h
    | ok content =>
      cases h
      exact hinner.kept source _ (PathMap.get?_insert_of_same rfl _ _)

/-- What an import puts into a text is a link to the target of the file. -/
theorem follow_dispatch_import (hin : ∀ job, Moves (Grows r) (inner job))
    (hfind : r.registry.find? "@import" = some Command.importFile) {scope : Scope} {path : Path}
    {snippet : Snippet} (hname : snippet.name = "@import") {result : Option (List Char)}
    {s t : Session}
    (h : follow r inner (dispatch r.registry scope path snippet) s = (.ok result, t)) :
    ∃ reference target, snippet.arguments = [reference] ∧
      PathMap.get? (scope.resolve reference) t.targets = some target ∧
      result = some (scope.link target).toList := by
  unfold dispatch at h
  rw [hname, hfind] at h
  dsimp only at h
  rw [follow_bind] at h
  obtain ⟨text, u, hinvoke, hdone⟩ := exists_of_bind_ok h
  cases hdone
  rw [follow_mapError] at hinvoke
  have hanswer : follow r inner (Command.importFile.invoke scope snippet.arguments) s
      = (.ok text, t) :=
    Prod.ext (Except.of_mapError_ok (congrArg (·.1) hinvoke)) (congrArg (·.2) hinvoke)
  obtain ⟨e, hscript⟩ | ⟨reference, hargs, hscript⟩ :=
    Command.invoke_importFile scope snippet.arguments <;> rw [hscript] at hanswer
  · cases hanswer
  -- the script goes on with what the import answers
  change follow r inner (Script.ofExcept (importTarget r inner scope.template
      (scope.resolve reference) s).1 >>= fun target => pure (scope.link target))
      (importTarget r inner scope.template (scope.resolve reference) s).2 = _ at hanswer
  cases hout : importTarget r inner scope.template (scope.resolve reference) s with
  | mk result v =>
    rw [hout] at hanswer
    cases result with
    | error e => cases hanswer
    | ok target =>
      cases hanswer
      exact ⟨reference, target, hargs, get?_of_importTarget hin hout, rfl⟩

end Renderer
end AgentDocs
