import AgentDocs.Proofs.Render.Calls

/-! # Renderings in sessions that are alike

Two sessions are alike if their stores hold the same, and the same files and documents are open in
them. They may differ in what they remember, as long as that is faithful: a rendering that imports
nothing cannot tell them apart. -/
namespace AgentDocs
open Effect Store Session

structure Session.Alike (s t : Session) : Prop where
  store : SameContent s.store t.store
  pending : s.pending = t.pending
  documents : s.documents = t.documents
  left : s.Faithful
  right : t.Faithful

def Action.imports : Action → Bool
  | .importFile _ _ => true
  | _ => false

def Moment.imports (m : Moment) : Bool :=
  match m.event with
  | .action a => a.imports
  | _ => false

/-- Whether no file is imported. -/
def Trace.ImportsNothing (trace : Trace) : Prop := ∀ m ∈ trace, m.imports = false

instance (trace : Trace) : Decidable trace.ImportsNothing :=
  inferInstanceAs (Decidable (∀ m ∈ trace, m.imports = false))

theorem Trace.ImportsNothing.mono {large small : Trace} (h : large.ImportsNothing)
    (hsub : small ⊆ large) : small.ImportsNothing := fun m hm => h m (hsub hm)

/-- The same result, in sessions that are alike. -/
structure Agree {α : Type} (x y : α × Session) : Prop where
  result : x.1 = y.1
  alike : x.2.Alike y.2

namespace Session
variable {s t s' t' : Session}

theorem Alike.steady (h : Alike s t) (hs : Steady s s') (ht : Steady t t')
    (hdocuments : s'.documents = t'.documents) : Alike s' t' where
  store := Trans.trans hs.store.symm (Trans.trans h.store ht.store)
  pending := hs.pending.symm.trans (h.pending.trans ht.pending)
  documents := hdocuments
  left := hs.faithful h.left
  right := ht.faithful h.right

theorem Alike.enter (h : Alike s t) (p : Path) : Alike (s.enter p) (t.enter p) where
  store := h.store
  pending := congrArg (p :: ·) h.pending
  documents := h.documents
  left := h.left.of_store rfl (Std.Refl.refl _)
  right := h.right.of_store rfl (Std.Refl.refl _)

theorem Alike.leave (h : Alike s t) : Alike s.leave t.leave where
  store := h.store
  pending := congrArg List.tail h.pending
  documents := h.documents
  left := h.left.of_store rfl (Std.Refl.refl _)
  right := h.right.of_store rfl (Std.Refl.refl _)

theorem Alike.openDocument (h : Alike s t) (r : Registry) :
    Alike (s.openDocument r) (t.openDocument r) where
  store := h.store
  pending := h.pending
  documents := congrArg ([] :: ·) h.documents
  left := h.left.of_store rfl (Std.Refl.refl _)
  right := h.right.of_store rfl (Std.Refl.refl _)

theorem Alike.closeDocument (h : Alike s t) (r : Registry) :
    Alike (s.closeDocument r) (t.closeDocument r) where
  store := h.store
  pending := h.pending
  documents := congrArg List.tail h.documents
  left := h.left.of_store rfl (Std.Refl.refl _)
  right := h.right.of_store rfl (Std.Refl.refl _)

theorem Alike.entriesOf (h : Alike s t) (name : String) : s.entriesOf name = t.entriesOf name := by
  rw [Session.entriesOf, Session.entriesOf, h.documents]

end Session

namespace Renderer
variable {r : Renderer} {depth : Nat}

/-- The text of a file does not depend on whether it is remembered. -/
theorem agree_sourceOf (job : Job) {s t : Session} (h : Alike s t) :
    Agree (sourceOf job s) (sourceOf job t) where
  result := by
    cases hcontent : job.content with
    | some content => rw [sourceOf, hcontent]; rfl
    | none =>
      have hnormal := Path.normal_normal job.path
      rw [sourceOf, hcontent]
      change (body job.path.normal s).1 = (body job.path.normal t).1
      rw [body_result hnormal h.left, body_result hnormal h.right, readText_congr h.store]
  alike := h.steady (moves_sourceOf job s) (moves_sourceOf job t) <| by
    rw [documents_sourceOf, documents_sourceOf, h.documents]

theorem agree_ending (mode : Mode) {x y : Except RenderError (List Char) × Session}
    (h : Agree x y) : Agree (r.ending mode x) (r.ending mode y) := by
  obtain ⟨result, s⟩ := x
  obtain ⟨result', t⟩ := y
  obtain ⟨rfl, halike⟩ := h
  cases mode with
  | part => exact ⟨rfl, halike⟩
  | document =>
    cases result with
    | error e => exact ⟨rfl, halike.closeDocument r.registry⟩
    | ok text =>
      have hfinish (s : Session) : Steady s (finishDocument r.registry (String.ofList text) s).2 :=
        moves_finishDocument _ _ s
      refine ⟨?_, (halike.steady (hfinish s) (hfinish t) halike.documents).closeDocument r.registry⟩
      have hentries (name : String) : entriesOf name s = entriesOf name t := halike.entriesOf name
      simp only [ending, finishDocument, hentries]

section Inner
variable {inner : Job → Rendering String} (hin : ∀ job, Moves Steady (inner job))
include hin

/-- What an action answers, if nothing is imported by it or in it. -/
theorem agree_perform {a : Action} (ha : a.imports = false) {s t : Session} (h : Alike s t)
    (hjob : ∀ job, a = .render job → Agree (inner job s) (inner job t)) :
    Agree (perform r inner a s) (perform r inner a t) := by
  have hs := steady_perform (r := r) hin a s
  have ht := steady_perform (r := r) hin a t
  cases a with
  | ask question => exact ⟨answer_congr h.store question, h.steady hs ht h.documents⟩
  | render job => exact hjob job rfl
  | importFile template p => cases ha
  | keep name e =>
    exact ⟨rfl, h.steady hs ht (congrArg (DocumentStack.push (name, e)) h.documents)⟩
  | kept name => exact ⟨h.entriesOf name, h⟩
  | mention | note => exact ⟨rfl, h.steady hs ht h.documents⟩

variable {trace : Job → Session → Trace}
  (hjob : ∀ job s t, Alike s t → (trace job t).ImportsNothing → Agree (inner job s) (inner job t))
include hjob

/-- What a script comes to, if that holds of the renderings in it. -/
theorem agree_follow {ε α : Type} (script : Script ε α) {s t : Session} (h : Alike s t)
    (hnone : (followTrace r inner trace depth script t).ImportsNothing) :
    Agree (follow r inner script s) (follow r inner script t) := by
  induction script generalizing s t with
  | done a => exact ⟨rfl, h⟩
  | fail e => exact ⟨rfl, h⟩
  | act a next ih =>
    rw [followTrace] at hnone
    have hperform : Agree (perform r inner a s) (perform r inner a t) := by
      refine agree_perform hin ?_ h fun job ha => ?_
      · exact hnone ⟨t, depth, .action a⟩ (List.mem_append_left _ List.mem_cons_self)
      · subst ha
        exact hjob job s t h (hnone.mono fun m hm =>
          List.mem_append_left _ (List.mem_cons_of_mem _ hm))
    have hnext := ih (perform r inner a t).1 hperform.alike
      (hnone.mono fun m hm => List.mem_append_right _ hm)
    change Agree (follow r inner (next (perform r inner a s).1) (perform r inner a s).2) _
    rw [hperform.result]
    exact hnext

theorem agree_renderOpen (job : Job) {s t : Session} (h : Alike s t)
    (hnone : (openTrace r inner trace depth job t).ImportsNothing) :
    Agree (renderOpen r inner job s) (renderOpen r inner job t) := by
  have hsource := agree_sourceOf job h
  unfold openTrace at hnone
  cases hs : sourceOf job s with
  | mk result s' =>
    cases ht : sourceOf job t with
    | mk result' t' =>
      rw [hs, ht] at hsource
      rw [ht] at hnone
      obtain ⟨hresult, halike⟩ := hsource
      cases hresult
      cases result with
      | error e =>
        rw [renderOpen_error hs, renderOpen_error ht]
        exact ⟨rfl, halike⟩
      | ok text =>
        have hopened : Alike (r.opened job.mode s') (r.opened job.mode t') := by
          cases job.mode with
          | part => exact halike
          | document => exact halike.openDocument r.registry
        have hend := agree_ending (r := r) job.mode (agree_follow hin hjob (r.scriptOf job text)
          hopened (hnone.mono fun m hm => List.mem_append_right _ hm))
        rw [renderOpen_ok hs, renderOpen_ok ht]
        exact ⟨congrArg (Except.map Text.trimmed) hend.result, hend.alike⟩

end Inner

theorem isOpen_congr {s t : Session} (h : Alike s t) (job : Job) : isOpen job s = isOpen job t := by
  rw [Renderer.isOpen, Renderer.isOpen, h.pending]

theorem agree_of_isOpen {job : Job} {s t : Session} (h : Alike s t) (hopen : isOpen job t = true) :
    Agree (renderWithin r depth job s) (renderWithin r depth job t) := by
  rw [renderWithin_of_isOpen ((isOpen_congr h job).trans hopen), renderWithin_of_isOpen hopen]
  exact ⟨rfl, h⟩

/-- A rendering that imports nothing comes to the same, by induction on the depth. -/
theorem agree_renderWithin (depth : Nat) (job : Job) {s t : Session} (h : Alike s t)
    (hnone : (traceWithin r depth job t).ImportsNothing) :
    Agree (renderWithin r depth job s) (renderWithin r depth job t) := by
  induction depth generalizing job s t with
  | zero =>
    cases hopen : isOpen job t with
    | true => exact agree_of_isOpen h hopen
    | false =>
      rw [renderWithin_zero ((isOpen_congr h job).trans hopen), renderWithin_zero hopen]
      exact ⟨rfl, h⟩
  | succ depth ih =>
    cases hopen : isOpen job t with
    | true => exact agree_of_isOpen h hopen
    | false =>
      rw [traceWithin, hopen] at hnone
      have hinside := agree_renderOpen (moves_renderWithin depth) (fun job s t => ih job) job
        (h.enter job.path.normal) (hnone.mono (List.subset_cons_self _ _))
      rw [renderWithin_succ ((isOpen_congr h job).trans hopen), renderWithin_succ hopen]
      exact ⟨hinside.result, hinside.alike.leave⟩

theorem agree_call (c : Call) {s t : Session} (h : Alike s t)
    (hnone : (r.callTrace c t).ImportsNothing) : Agree (r.call c s) (r.call c t) := by
  rw [call_apply, call_apply, depthFor_congr h.store]
  exact agree_renderWithin _ c.job h hnone

end Renderer
end AgentDocs
