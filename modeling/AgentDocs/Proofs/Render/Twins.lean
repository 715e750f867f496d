import AgentDocs.Proofs.Render.Termination
import AgentDocs.Proofs.Store.Region

/-! # Renderings on two stores

Two sessions that differ in their stores only, where the stores have the same files in a region: a
rendering that reads and looks for files of the region only cannot tell them apart. It need not have
the same depth left in both, as long as it runs out of it in neither. -/
namespace AgentDocs
open Effect Store Session

/-! ## What is looked at -/

/-- Whether an event is about files of a region, if it reads a file or looks for one. -/
def Event.StaysIn (K : Region) : Event → Prop
  | .source p => K p.parts = true
  | .action (.ask q) => q.StaysIn K
  | .action (.importFile _ p) => K p.parts = true
  | _ => True

instance (K : Region) : (e : Event) → Decidable (e.StaysIn K)
  | .source _ | .action (.importFile ..) => inferInstanceAs (Decidable (_ = true))
  | .action (.ask q) => inferInstanceAs (Decidable (q.StaysIn K))
  | .request _ | .action (.render _) | .action (.keep ..) | .action (.kept _)
  | .action (.mention _) | .action (.note _) => inferInstanceAs (Decidable True)

/-- The file that is read, if one is. -/
def Event.read? : Event → Option Path
  | .source p | .action (.ask (.read p)) => some p
  | _ => none

/-- Whether that holds of a moment, and there is depth left even if some is taken away. -/
structure Moment.Fits (K : Region) (taken : Nat) (m : Moment) : Prop where
  event : m.event.StaysIn K
  depth : taken < m.depth

/-! ## Sessions that differ in their stores -/

/-- Whether two sessions are the same but for their stores, which hold what two memories hold. -/
structure Session.Twin (m m' : Memory) (s t : Session) : Prop where
  rest : { s with store := t.store } = t
  stores : Beside (.memory m) (.memory m') s.store t.store

/-- The same result, in sessions that differ in their stores. -/
structure Matched {α : Type} (m m' : Memory) (x y : α × Session) : Prop where
  result : x.1 = y.1
  session : x.2.Twin m m' y.2

variable {m m' : Memory}

theorem Matched.exists_eq {α : Type} {x y : α × Session} (h : Matched m m' x y) :
    ∃ result s t, x = (result, s) ∧ y = (result, t) ∧ s.Twin m m' t :=
  ⟨x.1, x.2, y.2, rfl, Prod.ext h.result.symm rfl, h.session⟩

theorem Effect.Mirrors.matched {ε α : Type} {x y : Within ε α} {s t : Session}
    (h : Mirrors (Session.Twin m m') x y) (hst : s.Twin m m' t) : Matched m m' (x s) (y t) :=
  ⟨(h s t hst).1, (h s t hst).2⟩

namespace Session
variable {s t : Session}

/-- Whether a change of a session has nothing to do with its store. -/
def IgnoresStore (f : Session → Session) : Prop :=
  ∀ s store, f { s with store } = { f s with store }

theorem Twin.exists_eq (h : Twin m m' s t) : ∃ store, t = { s with store } := ⟨_, h.rest.symm⟩

theorem Twin.update (h : Twin m m' s t) (f : Session → Session) (hf : IgnoresStore f) :
    Twin m m' (f s) (f t) := by
  have hstore (s : Session) : (f s).store = s.store := by
    have hself : f s = { f s with store := s.store } := hf s s.store
    rw [hself]
  refine ⟨?_, ?_⟩
  · rw [hstore t, ← hf s t.store, h.rest]
  · rw [hstore, hstore]
    exact h.stores

theorem Twin.bodies (h : Twin m m' s t) : s.bodies = t.bodies := by
  obtain ⟨_, rfl⟩ := h.exists_eq
  rfl

theorem Twin.pending (h : Twin m m' s t) : s.pending = t.pending := by
  obtain ⟨_, rfl⟩ := h.exists_eq
  rfl

theorem Twin.targets (h : Twin m m' s t) : s.targets = t.targets := by
  obtain ⟨_, rfl⟩ := h.exists_eq
  rfl

theorem Twin.imported (h : Twin m m' s t) : s.imported = t.imported := by
  obtain ⟨_, rfl⟩ := h.exists_eq
  rfl

theorem Twin.references (h : Twin m m' s t) : s.references = t.references := by
  obtain ⟨_, rfl⟩ := h.exists_eq
  rfl

theorem Twin.entriesOf (h : Twin m m' s t) (name : String) : s.entriesOf name = t.entriesOf name := by
  obtain ⟨_, rfl⟩ := h.exists_eq
  rfl

end Session

namespace Within
variable {ε δ α β : Type}

theorem mirrors_onStore {task : Store.Task ε α}
    (h : Mirrors (Beside (.memory m) (.memory m')) task task) :
    Mirrors (Twin m m') (onStore task) (onStore task) := by
  intro s t hst
  obtain ⟨hresult, hstores⟩ := h s.store t.store hst.stores
  obtain ⟨_, rfl⟩ := hst.exists_eq
  exact ⟨hresult, rfl, hstores⟩

theorem mirrors_wrapError {R : Session → Session → Prop} {x y : Within δ α} (wrap : δ → ε)
    (h : Mirrors R x y) : Mirrors R (wrapError wrap x) (wrapError wrap y) := fun s t hst =>
  ⟨congrArg (Except.mapError wrap) (h s t hst).1, (h s t hst).2⟩

theorem mirrors_modify {f : Session → Session} (hf : IgnoresStore f) :
    Mirrors (Twin m m') (modify f : Within ε PUnit) (modify f) := fun _ _ h => ⟨rfl, h.update f hf⟩

/-- What is done with a session at hand. -/
theorem mirrors_get {R : Session → Session → Prop} {f : Session → Within ε β}
    (h : ∀ s t, R s t → Mirrors R (f s) (f t)) : Mirrors R (get >>= f) (get >>= f) :=
  fun s t hst => h s t hst s t hst

end Within

namespace Renderer
variable {r : Renderer} {K : Region} {taken depth : Nat} (hK : m'.filesIn K = m.filesIn K)

/-! ## Reading -/

section Reading
include hK

theorem mirrors_body {path : Path} (hp : K path.parts = true) :
    Mirrors (Twin m m') (body path) (body path) := by
  refine Within.mirrors_get fun s t hst => ?_
  rw [hst.bodies]
  split
  · exact mirrors_pure _
  · refine (Within.mirrors_onStore (Task.mirrors_wrapError _ (mirrors_readText hK hp))).bind
      fun text => ?_
    exact (Within.mirrors_modify fun _ _ => rfl).bind fun _ => mirrors_pure _

theorem matched_sourceOf (job : Job) {s t : Session} (h : Twin m m' s t)
    (hin : ∀ x ∈ sourceTrace depth job s, x.Fits K taken) :
    Matched m m' (sourceOf job s) (sourceOf job t) := by
  unfold sourceTrace at hin
  unfold sourceOf
  cases hcontent : job.content with
  | some content => exact ⟨rfl, h⟩
  | none =>
    rw [hcontent] at hin
    dsimp only at hin ⊢
    cases hremembered : PathMap.get? job.path.normal s.bodies with
    | some text =>
      have hbody {s : Session} (hs : PathMap.get? job.path.normal s.bodies = some text) :
          body job.path.normal s = (.ok text, s) := by
        rw [body, bind_ok (get_apply s), hs]
        rfl
      rw [hbody hremembered, hbody (h.bodies ▸ hremembered)]
      exact ⟨rfl, h⟩
    | none =>
      rw [PathMap.has, hremembered] at hin
      exact (mirrors_body hK (hin _ List.mem_cons_self).event).matched h

theorem mirrors_placeImport {source : Path} (hp : K source.parts = true) :
    Mirrors (Twin m m') (placeImport r source) (placeImport r source) := by
  refine (Within.mirrors_onStore (Task.mirrors_wrapError _ (mirrors_isFile hK hp))).bind
    fun found => ?_
  split
  · exact mirrors_throw _
  · refine Within.mirrors_get fun s t hst => ?_
    rw [hst.targets]
    split
    · exact mirrors_pure _
    · refine Within.mirrors_get fun s t hst => ?_
      rw [hst.targets]
      exact (Within.mirrors_modify fun _ _ => rfl).bind fun _ => mirrors_pure _

end Reading

/-! ## One file in another -/

section Inner
variable {inner inner' : Job → Rendering String} {trace : Job → Session → Trace}
  (hjob : ∀ job s t, Twin m m' s t → (∀ x ∈ trace job s, x.Fits K taken) →
    Matched m m' (inner job s) (inner' job t))
include hK hjob

theorem matched_importTarget {template : TemplateScope} {source : Path} {s t : Session}
    (h : Twin m m' s t) (hp : K source.parts = true)
    (hin : ∀ x ∈ performTrace r trace (.importFile template source) s, x.Fits K taken) :
    Matched m m' (importTarget r inner template source s)
      (importTarget r inner' template source t) := by
  obtain ⟨result, s', t', hs, ht, htwin⟩ := ((mirrors_placeImport hK hp).matched h).exists_eq
  rw [performTrace, hs] at hin
  cases result with
  | error e =>
    rw [importTarget_of_error hs, importTarget_of_error ht]
    exact ⟨rfl, htwin⟩
  | ok placed =>
    rw [importTarget_of_ok hs, importTarget_of_ok ht]
    split
    · rename_i hnew
      dsimp only at hin
      rw [if_pos hnew] at hin
      obtain ⟨result, u, u', hu, hu', htwin⟩ := (hjob _ s' t' htwin hin).exists_eq
      rw [hu, hu']
      cases result with
      | error e => exact ⟨rfl, htwin⟩
      | ok content =>
        exact ⟨rfl, htwin.update (fun s => { s with
          imported := s.imported ++ [⟨placed.1, content, template.source.relative⟩] })
          fun _ _ => rfl⟩
    · exact ⟨rfl, htwin⟩

theorem matched_perform {a : Action} {s t : Session} (h : Twin m m' s t)
    (ha : (Event.action a).StaysIn K) (hin : ∀ x ∈ performTrace r trace a s, x.Fits K taken) :
    Matched m m' (perform r inner a s) (perform r inner' a t) := by
  cases a with
  | ask question => exact (Within.mirrors_onStore (mirrors_answer hK ha)).matched h
  | render job => exact hjob job s t h hin
  | importFile template source => exact matched_importTarget hK hjob h ha hin
  | keep name e => exact ⟨rfl, h.update (Session.keep name e) fun _ _ => rfl⟩
  | kept name => exact ⟨h.entriesOf name, h⟩
  | mention mention =>
    exact ⟨rfl, h.update (fun s => { s with references := s.references.mention mention })
      fun _ _ => rfl⟩
  | note line => exact ⟨rfl, h.update (Session.note [line]) fun _ _ => rfl⟩

theorem matched_follow {ε α : Type} (script : Script ε α) {s t : Session} (h : Twin m m' s t)
    (hin : ∀ x ∈ followTrace r inner trace depth script s, x.Fits K taken) :
    Matched m m' (follow r inner script s) (follow r inner' script t) := by
  induction script generalizing s t with
  | done a => exact ⟨rfl, h⟩
  | fail e => exact ⟨rfl, h⟩
  | act a next ih =>
    rw [followTrace] at hin
    have hperform : Matched m m' (perform r inner a s) (perform r inner' a t) := by
      refine matched_perform hK hjob h ?_ fun x hx => ?_
      · exact (hin ⟨s, depth, .action a⟩ (List.mem_append_left _ List.mem_cons_self)).event
      · exact hin x (List.mem_append_left _ (List.mem_cons_of_mem _ hx))
    have hnext := ih (perform r inner a s).1 hperform.session
      fun x hx => hin x (List.mem_append_right _ hx)
    change Matched m m' _ (follow r inner' (next (perform r inner' a t).1) (perform r inner' a t).2)
    rw [← hperform.result]
    exact hnext

omit hK hjob in
theorem matched_ending (mode : Mode) {x y : Except RenderError (List Char) × Session}
    (h : Matched m m' x y) : Matched m m' (r.ending mode x) (r.ending mode y) := by
  obtain ⟨result, s⟩ := x
  obtain ⟨result', t⟩ := y
  obtain ⟨rfl, hsession⟩ := h
  cases mode with
  | part => exact ⟨rfl, hsession⟩
  | document =>
    have hclosed : Twin m m' (s.closeDocument r.registry) (t.closeDocument r.registry) :=
      hsession.update (Session.closeDocument r.registry) fun _ _ => rfl
    cases result with
    | error e => exact ⟨rfl, hclosed⟩
    | ok text =>
      have hentries (name : String) : entriesOf name s = entriesOf name t := hsession.entriesOf name
      refine ⟨by simp only [ending, finishDocument, hentries], ?_⟩
      exact hsession.update
        (fun s => (s.note (notesOf .finishes r.registry)).closeDocument r.registry) fun _ _ => rfl

theorem matched_renderOpen (job : Job) {s t : Session} (h : Twin m m' s t)
    (hin : ∀ x ∈ openTrace r inner trace depth job s, x.Fits K taken) :
    Matched m m' (renderOpen r inner job s) (renderOpen r inner' job t) := by
  unfold openTrace at hin
  obtain ⟨result, s', t', hs, ht, htwin⟩ :=
    (matched_sourceOf hK job h fun x hx => hin x (List.mem_append_left _ hx)).exists_eq
  rw [hs] at hin
  cases result with
  | error e =>
    rw [renderOpen_error hs, renderOpen_error ht]
    exact ⟨rfl, htwin⟩
  | ok text =>
    have hopened : Twin m m' (r.opened job.mode s') (r.opened job.mode t') := by
      cases job.mode with
      | part => exact htwin
      | document => exact htwin.update (Session.openDocument r.registry) fun _ _ => rfl
    have hend := matched_ending (r := r) job.mode (matched_follow hK hjob
      (r.scriptOf job text) hopened fun x hx => hin x (List.mem_append_right _ hx))
    rw [renderOpen_ok hs, renderOpen_ok ht]
    exact ⟨congrArg (Except.map Text.trimmed) hend.result, hend.session⟩

end Inner

/-! ## Documents -/

/-- Whether there is depth for renderings in a store, and would be in another one, where the depth
may be less. The builtin commands never run out of it. -/
def Enough (r : Renderer) (store store' : Store) (trace : Trace) : Prop :=
  (∃ classes, r.registry = .builtin classes) ∨
    ∀ x ∈ trace, depthFor store - depthFor store' < x.depth

theorem Enough.mono {store store' : Store} {trace part : Trace} (h : r.Enough store store' trace)
    (hpart : ∀ x ∈ part, x ∈ trace) : r.Enough store store' part :=
  h.imp id fun hdepth x hx => hdepth x (hpart x hx)

section Documents
include hK

/-- A rendering comes to the same with less depth, if so much of it can be taken away, by induction
on the depth. -/
theorem matched_renderWithin {n k : Nat} (hle : n ≤ k + taken) (job : Job) {s t : Session}
    (h : Twin m m' s t) (hin : ∀ x ∈ traceWithin r n job s, x.Fits K taken) :
    Matched m m' (renderWithin r n job s) (renderWithin r k job t) := by
  induction n generalizing k job s t with
  | zero => exact absurd (hin _ List.mem_cons_self).depth (Nat.not_lt_zero _)
  | succ n ih =>
    have hopens : isOpen job t = isOpen job s := by rw [isOpen, isOpen, h.pending]
    rw [traceWithin] at hin
    have hdepth : taken < n + 1 := (hin _ List.mem_cons_self).depth
    obtain ⟨k, rfl⟩ : ∃ k', k = k' + 1 := ⟨k - 1, by omega⟩
    cases hopen : isOpen job s with
    | true =>
      rw [renderWithin_of_isOpen hopen, renderWithin_of_isOpen (hopens.trans hopen)]
      exact ⟨rfl, h⟩
    | false =>
      rw [hopen] at hin
      have hentered : Twin m m' (s.enter job.path.normal) (t.enter job.path.normal) :=
        h.update (Session.enter job.path.normal) fun _ _ => rfl
      have hinside := matched_renderOpen hK (fun job s t => ih (k := k) (by omega) job) job hentered
        fun x hx => hin x (List.mem_cons_of_mem _ hx)
      rw [renderWithin_succ hopen, renderWithin_succ (hopens.trans hopen)]
      exact ⟨hinside.result, hinside.session.update Session.leave fun _ _ => rfl⟩

/-- A document comes to the same, although there may be more depth for it in one of the stores. -/
theorem matched_call (c : Call) {s t : Session} (h : Twin m m' s t) (hs : Along (.memory m) [] s)
    (ht : Along (.memory m') [] t) (hin : ∀ x ∈ r.callTrace c s, x.event.StaysIn K)
    (henough : r.Enough (.memory m) (.memory m') (r.callTrace c s)) :
    Matched m m' (r.call c s) (r.call c t) := by
  have hdepths {m : Memory} {s : Session} (hs : Along (.memory m) [] s) :
      depthFor s.store = depthFor (.memory m) := (depthFor_congr hs.store).symm
  rcases henough with ⟨classes, hr⟩ | hdepth
  case inl =>
    have hplaces (m : Memory) (p : Path) : Places (.memory m) p := trivial
    have hfits : ∀ x ∈ r.callTrace c s, x.Fits K 0 := fun x hx =>
      ⟨hin x hx, Nat.pos_of_ne_zero (depth_ne_zero hr (hplaces m _) (hplaces m _) hs x hx)⟩
    obtain ⟨k, hleft, hright⟩ :
        ∃ k, depthFor s.store ≤ k ∧ (Store.memory m').files.length + 1 ≤ k :=
      ⟨_, Nat.le_max_left _ _, Nat.le_max_right _ _⟩
    have hmatched := matched_renderWithin hK hleft c.job h hfits
    rwa [← call_apply, renderWithin_eq_call hr (hplaces m' _) (hplaces m' _) ht hright] at hmatched
  case inr =>
    have hfits : ∀ x ∈ r.callTrace c s, x.Fits K (depthFor s.store - depthFor t.store) :=
      fun x hx => ⟨hin x hx, by rw [hdepths hs, hdepths ht]; exact hdepth x hx⟩
    have hle : depthFor s.store ≤ depthFor t.store + (depthFor s.store - depthFor t.store) := by omega
    have hmatched := matched_renderWithin hK hle c.job h hfits
    rwa [← call_apply, ← call_apply] at hmatched

end Documents

end Renderer
end AgentDocs
