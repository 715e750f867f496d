import AgentDocs.Proofs.Render.Calls
import AgentDocs.Proofs.Render.Chain

/-! # Rendering files that include one another

With the builtin commands the files that are being rendered are a chain at each moment, an error
of an inclusion has a moment that explains it, and more depth than there are files makes no
difference. This is shown of an action, then of a script, then of a rendering. -/
namespace AgentDocs
open Effect Store Session

namespace Renderer

/-- A session in which files are being rendered, over a store that holds the same. -/
structure Along (store : Store) (pending : List Path) (s : Session) : Prop where
  store : SameContent store s.store
  pending : s.pending = pending
  faithful : s.Faithful

theorem Along.steady {store : Store} {pending : List Path} {s t : Session}
    (h : Along store pending s) (hst : Steady s t) : Along store pending t where
  store := Trans.trans h.store hst.store
  pending := hst.pending ▸ h.pending
  faithful := hst.faithful h.faithful

theorem Along.enter {store : Store} {pending : List Path} {s : Session}
    (h : Along store pending s) (p : Path) : Along store (p :: pending) (s.enter p) where
  store := h.store
  pending := congrArg (p :: ·) h.pending
  faithful := h.faithful.of_store rfl (Std.Refl.refl _)

theorem Along.opened {store : Store} {pending : List Path} {s : Session}
    (h : Along store pending s) (r : Renderer) (mode : Mode) :
    Along store pending (r.opened mode s) := by
  cases mode with
  | part => exact h
  | document => exact ⟨h.store, h.pending, h.faithful.of_store rfl (Std.Refl.refl _)⟩

theorem isOpen_iff {job : Job} {s : Session} (hnormal : ∀ p ∈ s.pending, p.normal = p) :
    isOpen job s = true ↔ job.path.normal ∈ s.pending := by
  simp only [isOpen, Path.any_same_iff]
  constructor
  · rintro ⟨p, hp, hsame⟩
    rwa [Path.eq_of_normal (Path.normal_normal _) (hnormal p hp) hsame]
  · exact fun h => ⟨_, h, rfl⟩

variable (r : Renderer) (store : Store) (doc : Job)

/-- What holds of each moment: the files that are being rendered are a chain, and with the depth
that is left they make up the depth there was. -/
structure Proper (level : Nat) (m : Moment) : Prop where
  level : m.depth + m.session.pending.length = level
  chain : match m.event with
    | .request job => r.Requested store doc job m.session.pending
    | _ => r.Chain store doc m.session.pending

/-- Whether an error of an inclusion has a moment that explains it: a file was asked for while it
was being rendered, or no depth was left. -/
structure Blamed (trace : Trace) (e : RenderError) : Prop where
  circular : ∀ p, e.innermost = .circularInclusion p → ∃ m ∈ trace, ∃ job,
    m.event = .request job ∧ job.path.normal = p ∧ isOpen job m.session = true
  deep : ∀ p, e.innermost = .tooDeep p → ∃ m ∈ trace, ∃ job,
    m.event = .request job ∧ m.depth = 0 ∧ isOpen job m.session = false

/-- What holds of something that is done, beside what is done with more depth. -/
structure Accounted {α : Type} (level : Nat) (trace : Trace) (Q : α → Prop)
    (done deeper : α × Session) : Prop where
  moments : ∀ m ∈ trace, Proper r store doc level m
  result : Q done.1
  /-- More depth than there are files makes no difference. -/
  settled : store.files.length + 1 ≤ level → done = deeper

/-- Whether an error, if there is one, has a property. -/
def FailsWith {ε α : Type} (E : ε → Prop) (result : Except ε α) : Prop :=
  ∀ e, result = .error e → E e

/-- What holds of a rendering that is asked for. -/
def Explained (depth : Nat) (job : Job) (s : Session) : Prop :=
  Accounted r store doc (depth + s.pending.length) (traceWithin r depth job s)
    (FailsWith (Blamed (traceWithin r depth job s)))
    (renderWithin r depth job s) (renderWithin r (depth + 1) job s)

/-- What holds of an action in a chain. -/
def Performed (depth : Nat) (pending : List Path) (c : Contract) (a : Action) (s : Session) :
    Prop :=
  Accounted r store doc (depth + pending.length) (performTrace r (traceWithin r depth) a s)
    (c.answers a) (perform r (renderWithin r depth) a s)
    (perform r (renderWithin r (depth + 1)) a s)

variable {r store doc}

theorem Along.not_mem {job : Job} {pending : List Path} {s : Session}
    (hs : Along store pending s) (hjob : r.Requested store doc job pending)
    (hopen : isOpen job s = false) : job.path.normal ∉ pending := by
  intro hmem
  have hnormal : ∀ p ∈ s.pending, p.normal = p := hs.pending ▸ hjob.nested.normal
  rw [(isOpen_iff hnormal).2 (hs.pending ▸ hmem)] at hopen
  cases hopen

theorem passes_blamed (trace : Trace) : RenderError.Passes (Blamed trace) where
  ofCommand path name e he := by
    cases e with
    | ofRender e => exact ⟨he.circular, he.deep⟩
    | _ => exact ⟨nofun, nofun⟩
  unresolvedVariable _ _ := ⟨nofun, nofun⟩
  ofStore _ := ⟨nofun, nofun⟩

theorem Blamed.mono {small large : Trace} {e : RenderError} (h : Blamed small e)
    (hsub : small ⊆ large) : Blamed large e where
  circular p hp := by
    obtain ⟨m, hm, hjob⟩ := h.circular p hp
    exact ⟨m, hsub hm, hjob⟩
  deep p hp := by
    obtain ⟨m, hm, hjob⟩ := h.deep p hp
    exact ⟨m, hsub hm, hjob⟩

/-! ## One action -/

section Step
variable {depth : Nat} {p : Path} {rest : List Path} {scope : Scope} {trace : Trace}

theorem requested_part (hchain : r.Chain store doc (p :: rest))
    (hscope : scope.template = doc.template) {q : Path} (hrefers : r.Refers store doc p q)
    (hstored : Stored store q) : r.Requested store doc (scope.part q) (p :: rest) := by
  have hnormal : (scope.part q).path.normal = q := hrefers.normal
  exact .inside hchain (hnormal.symm ▸ hrefers) (hnormal.symm ▸ hstored) rfl hscope

theorem requested_import (hchain : r.Chain store doc (p :: rest)) {q : Path}
    (hrefers : r.Refers store doc p q) (hstored : Stored store q) :
    r.Requested store doc (r.importJob doc.template q) (p :: rest) := by
  have hnormal : (r.importJob doc.template q).path.normal = q := hrefers.normal
  exact .inside hchain (hnormal.symm ▸ hrefers) (hnormal.symm ▸ hstored) rfl rfl

theorem performed_of_nothing {c : Contract} {a : Action} {s : Session}
    (htrace : ∀ trace, performTrace r trace a s = [])
    (hinner : ∀ inner inner', perform r inner a s = perform r inner' a s)
    (hanswers : c.answers a (perform r (renderWithin r depth) a s).1) :
    Performed r store doc depth (p :: rest) c a s where
  moments m hm := by simp [htrace] at hm
  result := hanswers
  settled _ := hinner _ _

variable (hroot : Places store r.root) (hdoc : Places store doc.path.normal)
  (hchain : r.Chain store doc (p :: rest))
include hroot hdoc hchain

theorem stored_of_asked {s : Session} (hs : SameContent store s.store) {q : Path}
    (hrefers : r.Refers store doc p q) (h : (isFile q s.store).1 = .ok true) :
    Stored store q := by
  have hplaces := hrefers.places hroot (hchain.places hroot hdoc p List.mem_cons_self)
  exact hs.symm.stored (stored_of_isFile hrefers.normal (hs.places hplaces) h)

variable (hin : ∀ job s, Along store (p :: rest) s → r.Requested store doc job (p :: rest) →
  Explained r store doc depth job s)
include hin

omit hroot hdoc in
/-- A file that is imported for the first time is rendered. -/
theorem performed_new {q target : Path} (hrefers : r.Refers store doc p q) {s t : Session}
    (ht : Along store (p :: rest) t) (hplace : placeImport r q s = (.ok (target, true), t))
    (hstored : Stored store q)
    (htrace : performTrace r (traceWithin r depth) (.importFile doc.template q) s ⊆ trace) :
    Performed r store doc depth (p :: rest)
      (.links scope (r.Refers store doc p) (Stored store) (fun _ => True) (Blamed trace))
      (.importFile doc.template q) s := by
  obtain ⟨hmoments, hblamed, hsettled⟩ := hin _ t ht (requested_import hchain hrefers hstored)
  rw [ht.pending] at hmoments hsettled
  have hdone (inner : Job → Rendering String) :
      perform r inner (.importFile doc.template q) s
        = importing doc.template target (inner (r.importJob doc.template q) t) :=
    importTarget_of_ok hplace
  have hperform : performTrace r (traceWithin r depth) (.importFile doc.template q) s
      = traceWithin r depth (r.importJob doc.template q) t := by
    rw [performTrace, hplace]
    rfl
  rw [hperform] at htrace
  refine ⟨hperform ▸ hmoments, fun e he => ?_, fun hd => by rw [hdone, hdone, hsettled hd]⟩
  rw [hdone] at he
  cases hr : renderWithin r depth (r.importJob doc.template q) t with
  | mk result u =>
    rw [hr] at he hblamed
    cases result with
    | ok content => cases he
    | error e' =>
      cases he
      exact (hblamed e' rfl).mono htrace

theorem performed_importFile {q : Path} (hrefers : r.Refers store doc p q) {s : Session}
    (halong : Along store (p :: rest) s)
    (htrace : performTrace r (traceWithin r depth) (.importFile doc.template q) s ⊆ trace) :
    Performed r store doc depth (p :: rest)
      (.links scope (r.Refers store doc p) (Stored store) (fun _ => True) (Blamed trace))
      (.importFile doc.template q) s := by
  have hsteady := moves_placeImport (r := r) q s
  cases hplace : placeImport r q s with
  | mk result t =>
    rw [hplace] at hsteady
    have ht := halong.steady hsteady
    cases result with
    | error e =>
      have himport (inner : Job → Rendering String) :
          perform r inner (.importFile doc.template q) s = (.error e, t) :=
        importTarget_of_error hplace
      refine performed_of_nothing (fun trace => by rw [performTrace, hplace])
        (fun inner inner' => by rw [himport, himport]) fun e' he' => ?_
      rw [himport] at he'
      cases he'
      have hne := ne_ofRender_of_placeImport hplace
      cases e with
      | ofRender e' => exact absurd rfl (hne e')
      | _ => trivial
    | ok placed =>
      obtain ⟨target, new⟩ := placed
      cases new with
      | false =>
        have himport (inner : Job → Rendering String) :
            perform r inner (.importFile doc.template q) s = (.ok target, t) :=
          importTarget_of_ok hplace
        refine performed_of_nothing (fun trace => by rw [performTrace, hplace]; rfl)
          (fun inner inner' => by rw [himport, himport]) fun e he => ?_
        rw [himport] at he
        cases he
      | true =>
        have hstored := stored_of_asked hroot hdoc hchain halong.store hrefers
          (isFile_of_placeImport hplace)
        exact performed_new hchain hin hrefers ht hplace hstored htrace

theorem performed (hscope : scope.template = doc.template) {a : Action}
    (hasks : (Contract.links scope (r.Refers store doc p) (Stored store) (fun _ => True)
      (Blamed trace)).asks a)
    {s : Session} (halong : Along store (p :: rest) s)
    (htrace : performTrace r (traceWithin r depth) a s ⊆ trace) :
    Performed r store doc depth (p :: rest)
      (.links scope (r.Refers store doc p) (Stored store) (fun _ => True) (Blamed trace)) a s := by
  cases a with
  | ask question =>
    refine performed_of_nothing (fun _ => rfl) (fun _ _ => rfl) ?_
    cases question with
    | exists? q kind =>
      cases kind with
      | none => trivial
      | some kind =>
        cases kind with
        | directory => trivial
        | file => exact fun hx hrefers => stored_of_asked hroot hdoc hchain halong.store hrefers hx
    | _ => trivial
  | render job =>
    obtain ⟨q, rfl, hrefers, hstored⟩ := hasks
    obtain ⟨hmoments, hblamed, hsettled⟩ :=
      hin _ s halong (requested_part hchain hscope hrefers hstored)
    rw [halong.pending] at hmoments hsettled
    exact ⟨hmoments, fun e he => (hblamed e he).mono htrace, hsettled⟩
  | importFile template q =>
    obtain ⟨rfl, hrefers⟩ := hasks
    rw [hscope] at htrace ⊢
    exact performed_importFile hroot hdoc hchain hin hrefers halong htrace
  | keep | kept | mention | note =>
    exact performed_of_nothing (fun _ => rfl) (fun _ _ => rfl) trivial

/-! ## A script -/

/-- What holds of a script that keeps to its links. -/
theorem followed {ε α : Type} (hscope : scope.template = doc.template) {Q : α → Prop}
    {E : ε → Prop} {script : Script ε α} (hmeets : script.Meets
      (.links scope (r.Refers store doc p) (Stored store) (fun _ => True) (Blamed trace)) Q E)
    {s : Session} (halong : Along store (p :: rest) s)
    (htrace : followTrace r (renderWithin r depth) (traceWithin r depth) depth script s ⊆ trace) :
    Accounted r store doc (depth + (p :: rest).length)
      (followTrace r (renderWithin r depth) (traceWithin r depth) depth script s) (FailsWith E)
      (follow r (renderWithin r depth) script s)
      (follow r (renderWithin r (depth + 1)) script s) := by
  induction script generalizing s with
  | done a =>
    refine ⟨fun m hm => absurd hm List.not_mem_nil, fun e he => ?_, fun _ => rfl⟩
    cases he
  | fail e =>
    refine ⟨fun m hm => absurd hm List.not_mem_nil, fun e' he => ?_, fun _ => rfl⟩
    cases he
    exact hmeets
  | act a next ih =>
    rw [followTrace] at htrace ⊢
    have hperform := performed hroot hdoc hchain hin hscope hmeets.1 halong fun m hm =>
      htrace (List.mem_append_left _ (List.mem_cons_of_mem _ hm))
    have hafter : Along store (p :: rest) (perform r (renderWithin r depth) a s).2 :=
      halong.steady (steady_perform (moves_renderWithin depth) a s)
    obtain ⟨hmoments, herrors, hsettled⟩ := ih _ (hmeets.2 _ hperform.result) hafter
      fun m hm => htrace (List.mem_append_right _ hm)
    refine ⟨fun m hm => ?_, herrors, fun hd => ?_⟩
    · rcases List.mem_append.1 hm with hm | hm
      · rcases List.mem_cons.1 hm with rfl | hm
        · exact ⟨by rw [halong.pending], by rw [halong.pending]; exact hchain⟩
        · exact hperform.moments m hm
      · exact hmoments m hm
    · change follow r _ (next (perform r (renderWithin r depth) a s).1) _ =
        follow r _ (next (perform r (renderWithin r (depth + 1)) a s).1)
          (perform r (renderWithin r (depth + 1)) a s).2
      rw [← hperform.settled hd]
      exact hsettled hd

end Step

/-! ## A rendering -/

theorem ofStore_of_sourceOf_error {job : Job} {s t : Session} {e : RenderError}
    (h : sourceOf job s = (.error e, t)) : ∃ f, e = .ofStore f := by
  cases hcontent : job.content with
  | some content =>
    rw [sourceOf, hcontent] at h
    cases h
  | none =>
    rw [sourceOf, hcontent] at h
    exact ofStore_of_body_error h

/-- The text of a file is read from the store, at once or before. -/
theorem exists_of_sourceOf {job : Job} (hcontent : job.content = none) {s t : Session}
    (hs : SameContent store s.store) (hfaithful : s.Faithful) {text : List Char}
    (h : sourceOf job s = (.ok text, t)) :
    ∃ content, (readText job.path.normal store).1 = .ok content ∧
      text = Markup.stripHeaders content.toList := by
  have hresult := body_result (Path.normal_normal job.path) hfaithful
  rw [sourceOf, hcontent] at h
  change body job.path.normal s = _ at h
  rw [h, ← readText_congr hs] at hresult
  cases hread : (readText job.path.normal store).1 with
  | error e =>
    rw [hread] at hresult
    cases hresult
  | ok content =>
    rw [hread] at hresult
    cases hresult
    exact ⟨content, rfl, rfl⟩

/-- What is rendered for a job is the text of its path. -/
theorem textOf_of_sourceOf {job : Job} {pending : List Path}
    (hjob : r.Requested store doc job pending) (hnew : job.path.normal ∉ pending) {s t : Session}
    (hs : SameContent store s.store) (hfaithful : s.Faithful) {text : List Char}
    (h : sourceOf job s = (.ok text, t)) : textOf store doc job.path.normal = some text := by
  unfold textOf
  cases hjob with
  | document =>
    rw [if_pos rfl]
    cases hcontent : doc.content with
    | some content =>
      rw [sourceOf, hcontent] at h
      cases h
      rfl
    | none =>
      obtain ⟨content, hread, rfl⟩ := exists_of_sourceOf hcontent hs hfaithful h
      rw [hread]
  | inside hchain _ _ hcontent _ =>
    have hne : job.path.normal ≠ doc.path.normal := fun he => hnew (he ▸ hchain.document_mem)
    rw [if_neg hne]
    obtain ⟨content, hread, rfl⟩ := exists_of_sourceOf hcontent hs hfaithful h
    rw [hread]

theorem traceWithin_of_isOpen {job : Job} {s : Session} (h : isOpen job s = true) (depth : Nat) :
    traceWithin r depth job s = [⟨s, depth, .request job⟩] := by
  cases depth with
  | zero => rfl
  | succ depth => rw [traceWithin, if_pos h]

theorem error_of_ending {mode : Mode} {out : Except RenderError (List Char) × Session}
    {e : RenderError} (h : (r.ending mode out).1.map Text.trimmed = .error e) :
    out.1 = .error e := by
  obtain ⟨result, s⟩ := out
  cases mode <;> cases result <;> cases h <;> rfl

theorem proper_request {depth : Nat} {job : Job} {s : Session} {pending : List Path}
    (hs : Along store pending s) (hjob : r.Requested store doc job pending) :
    Proper r store doc (depth + s.pending.length) ⟨s, depth, .request job⟩ :=
  ⟨rfl, by rw [hs.pending]; exact hjob⟩

theorem explained_of_isOpen {depth : Nat} {job : Job} {s : Session} {pending : List Path}
    (hs : Along store pending s) (hjob : r.Requested store doc job pending)
    (hopen : isOpen job s = true) : Explained r store doc depth job s where
  moments m hm := by
    rw [traceWithin_of_isOpen hopen, List.mem_singleton] at hm
    subst hm
    exact proper_request hs hjob
  result e he := by
    rw [renderWithin_of_isOpen hopen] at he
    cases he
    rw [traceWithin_of_isOpen hopen]
    exact ⟨fun p hp => ⟨_, List.mem_singleton_self _, job, rfl, by cases hp; rfl, hopen⟩, nofun⟩
  settled _ := by rw [renderWithin_of_isOpen hopen, renderWithin_of_isOpen hopen]

theorem explained_zero {job : Job} {s : Session} {pending : List Path}
    (hs : Along store pending s) (hjob : r.Requested store doc job pending)
    (hopen : isOpen job s = false) (hnew : job.path.normal ∉ pending) :
    Explained r store doc 0 job s where
  moments m hm := by
    rw [traceWithin, List.mem_singleton] at hm
    subst hm
    exact proper_request hs hjob
  result e he := by
    rw [renderWithin_zero hopen] at he
    cases he
    exact ⟨nofun, fun p hp => ⟨_, List.mem_singleton_self _, job, rfl, rfl, hopen⟩⟩
  settled hd := by
    -- the chain with the file would be longer than there are files
    have hlen := (hjob.chain hnew).length_le
    rw [hs.pending] at hd
    simp only [List.length_cons] at hlen
    omega

theorem proper_source {depth : Nat} {job : Job} {s : Session} {pending : List Path}
    (hs : Along store pending s) (hchain : r.Chain store doc pending) :
    ∀ m ∈ sourceTrace depth job s, Proper r store doc (depth + pending.length) m := by
  intro m hm
  unfold sourceTrace at hm
  split at hm
  · cases hm
  · split at hm
    · cases hm
    · rw [List.mem_singleton] at hm
      subst hm
      exact ⟨by rw [hs.pending], by rw [hs.pending]; exact hchain⟩

theorem workingDir_scopeOf (job : Job) :
    (r.scopeOf job).workingDir = job.path.normal.parent?.getD r.root := by simp only [scopeOf]

section Explained
variable {classes : ClassIndex} (hr : r.registry = .builtin classes)
  (hroot : Places store r.root) (hdoc : Places store doc.path.normal)
include hr hroot hdoc

/-- What holds of the rendering of a file that is not being rendered yet. -/
theorem explained_open {depth : Nat}
    (ih : ∀ job s pending, Along store pending s → r.Requested store doc job pending →
      Explained r store doc depth job s)
    {job : Job} {pending : List Path} (hjob : r.Requested store doc job pending)
    (hnew : job.path.normal ∉ pending) {s : Session}
    (hs : Along store (job.path.normal :: pending) s) {trace : Trace}
    (htrace : openTrace r (renderWithin r depth) (traceWithin r depth) depth job s ⊆ trace) :
    Accounted r store doc (depth + (pending.length + 1))
      (openTrace r (renderWithin r depth) (traceWithin r depth) depth job s)
      (FailsWith (Blamed trace)) (renderOpen r (renderWithin r depth) job s)
      (renderOpen r (renderWithin r (depth + 1)) job s) := by
  have hchain := hjob.chain hnew
  have hsource : ∀ m ∈ sourceTrace depth job s,
      Proper r store doc (depth + (pending.length + 1)) m := proper_source hs hchain
  unfold openTrace at htrace ⊢
  cases hout : sourceOf job s with
  | mk result t =>
    rw [hout] at htrace
    cases result with
    | error e =>
      refine ⟨by simpa using hsource, fun e' he' => ?_, fun _ => ?_⟩
      · rw [renderOpen_error hout] at he'
        cases he'
        obtain ⟨f, rfl⟩ := ofStore_of_sourceOf_error hout
        exact (passes_blamed trace).ofStore f
      · rw [renderOpen_error hout, renderOpen_error hout]
    | ok text =>
      have ht : Along store (job.path.normal :: pending) t := by
        have hsteady := moves_sourceOf job s
        rw [hout] at hsteady
        exact hs.steady hsteady
      have htext := textOf_of_sourceOf hjob hnew hs.store hs.faithful hout
      have hmeets : (r.scriptOf job text).Meets
          (.links (r.scopeOf job) (r.Refers store doc job.path.normal) (Stored store)
            (fun _ => True) (Blamed trace)) (fun _ => True) (Blamed trace) :=
        meets_expand hr (passes_blamed trace) job.path.normal text (workingDir_scopeOf job) rfl
          fun q hq => ⟨text, htext, hjob.template ▸ hq⟩
      obtain ⟨hmoments, herrors, hsettled⟩ := followed hroot hdoc hchain
        (fun job s => ih job s _) hjob.template hmeets (ht.opened r job.mode)
        fun m hm => htrace (List.mem_append_right _ hm)
      refine ⟨fun m hm => ?_, fun e he => ?_, fun hd => ?_⟩
      · exact (List.mem_append.1 hm).elim (hsource m) (hmoments m)
      · rw [renderOpen_ok hout] at he
        exact herrors e (error_of_ending he)
      · rw [renderOpen_ok hout, renderOpen_ok hout, hsettled hd]

theorem explained_succ {depth : Nat}
    (ih : ∀ job s pending, Along store pending s → r.Requested store doc job pending →
      Explained r store doc depth job s)
    {job : Job} {s : Session} {pending : List Path} (hs : Along store pending s)
    (hjob : r.Requested store doc job pending) (hopen : isOpen job s = false)
    (hnew : job.path.normal ∉ pending) : Explained r store doc (depth + 1) job s := by
  have hlevel : depth + 1 + s.pending.length = depth + (pending.length + 1) := by
    rw [hs.pending]
    omega
  have htrace : traceWithin r (depth + 1) job s = ⟨s, depth + 1, .request job⟩ ::
      openTrace r (renderWithin r depth) (traceWithin r depth) depth job
        (s.enter job.path.normal) := by
    rw [traceWithin, if_neg (Bool.eq_false_iff.1 hopen)]
  have hsub : openTrace r (renderWithin r depth) (traceWithin r depth) depth job
      (s.enter job.path.normal) ⊆ traceWithin r (depth + 1) job s :=
    htrace ▸ List.subset_cons_self _ _
  obtain ⟨hmoments, hblamed, hsettled⟩ :=
    explained_open hr hroot hdoc ih hjob hnew (hs.enter job.path.normal) hsub
  refine ⟨fun m hm => ?_, fun e he => ?_, fun hd => ?_⟩
  · rw [htrace] at hm
    rcases List.mem_cons.1 hm with rfl | hm
    · exact proper_request hs hjob
    · exact hlevel ▸ hmoments m hm
  · rw [renderWithin_succ hopen] at he
    exact hblamed e he
  · rw [renderWithin_succ hopen, renderWithin_succ hopen, Within.between, Within.between,
      hsettled (hlevel ▸ hd)]

/-- Every rendering that is asked for is explained, by induction on the depth. -/
theorem explained (depth : Nat) (job : Job) (s : Session) (pending : List Path)
    (hs : Along store pending s) (hjob : r.Requested store doc job pending) :
    Explained r store doc depth job s := by
  induction depth generalizing job s pending with
  | zero =>
    cases hopen : isOpen job s with
    | true => exact explained_of_isOpen hs hjob hopen
    | false => exact explained_zero hs hjob hopen (hs.not_mem hjob hopen)
  | succ depth ih =>
    cases hopen : isOpen job s with
    | true => exact explained_of_isOpen hs hjob hopen
    | false => exact explained_succ hr hroot hdoc ih hs hjob hopen (hs.not_mem hjob hopen)

end Explained

end Renderer
end AgentDocs
