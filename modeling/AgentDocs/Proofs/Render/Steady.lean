import AgentDocs.Proofs.Path.Map
import AgentDocs.Proofs.Path.Normal
import AgentDocs.Proofs.Store.Content
import AgentDocs.Render.Renderer

/-! # What a rendering leaves as it was

Whatever commands a registry has and however a rendering ends: the store holds the same, the same
files are being rendered, the documents around the innermost one have collected the same, and the
bodies that are remembered are those of the files. -/
namespace AgentDocs
open Effect Store

namespace Session

/-- Whether all bodies that are remembered are those of their files. -/
def Faithful (s : Session) : Prop :=
  ∀ p text, (p, text) ∈ s.bodies → p.normal = p ∧
    ∃ content, (Store.readText p s.store).1 = .ok content ∧
      text = Markup.stripHeaders content.toList

/-- What is the same before and after. -/
structure Steady (s t : Session) : Prop where
  store : SameContent s.store t.store
  pending : s.pending = t.pending
  outer : s.documents.tail = t.documents.tail
  faithful : Faithful s → Faithful t
  /-- What is remembered is not read again. -/
  remembered : ∀ p, PathMap.has p s.bodies = true → PathMap.has p t.bodies = true

instance : Std.Refl Steady where
  refl _ := ⟨Std.Refl.refl _, rfl, rfl, id, fun _ => id⟩

instance : Trans Steady Steady Steady where
  trans hab hbc := ⟨Trans.trans hab.store hbc.store, hab.pending.trans hbc.pending,
    hab.outer.trans hbc.outer, hbc.faithful ∘ hab.faithful,
    fun p => hbc.remembered p ∘ hab.remembered p⟩

theorem Faithful.of_store {s t : Session} (h : Faithful s) (hb : s.bodies = t.bodies)
    (hs : SameContent s.store t.store) : Faithful t := by
  intro p text hp
  obtain ⟨hn, content, hread, htext⟩ := h p text (hb ▸ hp)
  exact ⟨hn, content, (readText_congr hs p) ▸ hread, htext⟩

/-- A change of the store that keeps what it holds. -/
theorem steady_withStore {s : Session} {store : Store} (h : SameContent s.store store) :
    Steady s { s with store } :=
  ⟨h, rfl, rfl, fun hf => hf.of_store rfl h, fun _ => id⟩

/-- A change of nothing that counts here. -/
theorem steady_of_eq {s t : Session} (hstore : s.store = t.store) (hbodies : s.bodies = t.bodies)
    (hpending : s.pending = t.pending) (hdocuments : s.documents = t.documents) : Steady s t := by
  have hs : SameContent s.store t.store := hstore ▸ Std.Refl.refl _
  exact ⟨hs, hpending, by rw [hdocuments], fun hf => hf.of_store hbodies hs,
    fun p hp => hbodies ▸ hp⟩

theorem steady_keep (s : Session) (name : String) (e : Entry) : Steady s (s.keep name e) where
  store := Std.Refl.refl _
  pending := rfl
  outer := by
    cases hd : s.documents with
    | nil => simp [keep, hd, DocumentStack.push]
    | cons frame rest => simp [keep, hd, DocumentStack.push]
  faithful hf := hf.of_store rfl (Std.Refl.refl _)
  remembered _ := id

/-- Between `enter` and `leave` one more file is being rendered. -/
theorem steady_of_enter {s t : Session} {p : Path} (h : Steady (s.enter p) t) :
    Steady s t.leave where
  store := h.store
  pending := by rw [leave, ← h.pending]; rfl
  outer := h.outer
  faithful hf := (h.faithful (hf.of_store rfl (Std.Refl.refl _))).of_store rfl (Std.Refl.refl _)
  remembered := h.remembered

/-- Between opening and closing there is one more document. -/
theorem documents_of_openDocument {r : Registry} {s t : Session}
    (h : Steady (s.openDocument r) t) : s.documents = (t.closeDocument r).documents := h.outer

theorem steady_of_openDocument {r : Registry} {s t : Session} (h : Steady (s.openDocument r) t) :
    Steady s (t.closeDocument r) where
  store := h.store
  pending := h.pending
  outer := congrArg List.tail (documents_of_openDocument h)
  faithful hf := (h.faithful (hf.of_store rfl (Std.Refl.refl _))).of_store rfl (Std.Refl.refl _)
  remembered := h.remembered

end Session

namespace Within
open Session
variable {ε δ α : Type}

theorem moves_onStore {task : Store.Task ε α} (h : Moves SameContent task) :
    Moves Steady (onStore task) := fun s => steady_withStore (h s.store)

theorem moves_access {wrap : Store.Error → ε} {task : Store.Access α}
    (h : Moves SameContent task) : Moves Steady (access wrap task) := moves_onStore h

theorem moves_wrapError {R : Session → Session → Prop} {wrap : δ → ε} {act : Within δ α}
    (h : Moves R act) : Moves R (wrapError wrap act) := h

theorem moves_modify {R : Session → Session → Prop} {f : Session → Session}
    (h : ∀ s, R s (f s)) : Moves R (modify f : Within ε PUnit) := h

/-- A change of nothing that counts, and an answer. -/
theorem moves_modify_pure {f : Session → Session} (h : ∀ s, Steady s (f s)) (a : α) :
    Moves Steady (do modify f; return a : Within ε α) :=
  Moves.bind (moves_modify h) fun _ => moves_pure a

theorem moves_between {R : Session → Session → Prop} {before after : Session → Session}
    {act : Within ε α} (h : Moves R act) (hR : ∀ s t, R (before s) t → R s (after t)) :
    Moves R (between before after act) := fun s => hR s _ (h (before s))

end Within

namespace Renderer
open Session
variable {r : Renderer} {inner : Job → Rendering String}

/-- A body is remembered, or its file is read; then it is remembered if that succeeds. -/
theorem body_cases (path : Path) (s : Session) :
    (∃ text, PathMap.get? path s.bodies = some text ∧ body path s = (.ok text, s)) ∨
    PathMap.get? path s.bodies = none ∧ ∃ store,
      ((∃ e, readText path s.store = (.error e, store) ∧
        body path s = (.error (.ofStore e), { s with store := store })) ∨
      ∃ content, readText path s.store = (.ok content, store) ∧
        body path s = (.ok (Markup.stripHeaders content.toList), { s with
          store := store
          bodies := PathMap.insert path (Markup.stripHeaders content.toList) s.bodies })) := by
  have hget : (get : Rendering Session) s = (.ok s, s) := rfl
  cases hremembered : PathMap.get? path s.bodies with
  | some text =>
    refine .inl ⟨text, rfl, ?_⟩
    rw [body, bind_ok hget, hremembered]
    rfl
  | none =>
    refine .inr ⟨rfl, ?_⟩
    cases hread : readText path s.store with
    | mk result store =>
      have haccess : Within.access RenderError.ofStore (readText path) s
          = (result.mapError .ofStore, { s with store }) := by
        simp only [Within.access, Within.onStore, Task.wrapError, hread]
      rw [body, bind_ok hget, hremembered]
      cases result with
      | error e => exact ⟨store, .inl ⟨e, rfl, bind_error haccess⟩⟩
      | ok content => exact ⟨store, .inr ⟨content, rfl, bind_ok haccess⟩⟩

/-- What a body is does not depend on whether it is remembered. -/
theorem body_result {path : Path} (hp : path.normal = path) {s : Session} (hs : Faithful s) :
    (body path s).1 = ((readText path s.store).1.map fun content =>
      Markup.stripHeaders content.toList).mapError .ofStore := by
  obtain ⟨text, hget, hbody⟩ | ⟨_, store, ⟨e, hread, hbody⟩ | ⟨content, hread, hbody⟩⟩ :=
    body_cases path s
  · obtain ⟨q, hq, hmem⟩ := PathMap.exists_mem_of_get? hget
    obtain ⟨hnormal, content, hread, rfl⟩ := hs q text hmem
    obtain rfl : q = path := Path.eq_of_normal hnormal hp hq
    rw [hbody, hread]
    rfl
  · rw [hbody, hread]
    rfl
  · rw [hbody, hread]
    rfl

theorem ofStore_of_body_error {path : Path} {s t : Session} {e : RenderError}
    (h : body path s = (.error e, t)) : ∃ f, e = .ofStore f := by
  obtain ⟨_, _, hbody⟩ | ⟨_, _, ⟨f, _, hbody⟩ | ⟨_, _, hbody⟩⟩ := body_cases path s
  · cases hbody.symm.trans h
  · cases hbody.symm.trans h
    exact ⟨f, rfl⟩
  · cases hbody.symm.trans h

/-- A body is remembered only after it was read. -/
theorem moves_body {path : Path} (hp : path.normal = path) : Moves Steady (body path) := by
  intro s
  have hstore := moves_readText path s.store
  obtain ⟨text, _, hbody⟩ | ⟨hget, store, ⟨e, hread, hbody⟩ | ⟨content, hread, hbody⟩⟩ :=
    body_cases path s
  · rw [hbody]
    exact Std.Refl.refl s
  · rw [hread] at hstore
    rw [hbody]
    exact steady_withStore hstore
  · rw [hread] at hstore
    rw [hbody]
    refine ⟨hstore, rfl, rfl, fun hf p text hmem => ?_, fun p => PathMap.has_insert⟩
    rcases PathMap.eq_or_mem_of_mem_insert hget hmem with heq | hmem
    · cases heq
      exact ⟨hp, content, by rw [← readText_congr hstore, hread], rfl⟩
    · obtain ⟨hn, c, hc, htext⟩ := hf p text hmem
      exact ⟨hn, c, by rw [← readText_congr hstore, hc], htext⟩

theorem documents_body (path : Path) (s : Session) :
    (body path s).2.documents = s.documents := by
  obtain ⟨_, _, hbody⟩ | ⟨_, _, ⟨_, _, hbody⟩ | ⟨_, _, hbody⟩⟩ := body_cases path s <;>
    rw [hbody]

theorem moves_placeImport (source : Path) : Moves Steady (placeImport r source) := by
  refine (Within.moves_access (moves_isFile source)).bind fun found => ?_
  split
  · exact moves_throw _
  · refine moves_get.bind fun s => ?_
    split
    · exact moves_pure _
    · refine moves_get.bind fun s => ?_
      dsimp only
      exact Within.moves_modify_pure (fun _ => by exact steady_of_eq rfl rfl rfl rfl) _

theorem moves_importTarget (hin : ∀ job, Moves Steady (inner job)) (template : TemplateScope)
    (source : Path) : Moves Steady (importTarget r inner template source) := by
  refine (moves_placeImport source).bind fun placed => ?_
  split
  · refine (Within.moves_wrapError (hin _)).bind fun content => ?_
    exact Within.moves_modify_pure (fun _ => by exact steady_of_eq rfl rfl rfl rfl) _
  · exact moves_pure _

theorem steady_perform (hin : ∀ job, Moves Steady (inner job)) (a : Action) (s : Session) :
    Steady s (perform r inner a s).2 := by
  cases a with
  | ask question => exact Within.moves_onStore (moves_answer question) s
  | render job => exact hin job s
  | importFile template p => exact moves_importTarget hin template p s
  | keep name e => exact steady_keep s name e
  | kept => exact Std.Refl.refl s
  | mention | note => exact steady_of_eq rfl rfl rfl rfl

theorem moves_follow {ε α : Type} (hin : ∀ job, Moves Steady (inner job))
    (script : Script ε α) : Moves Steady (follow r inner script) := by
  induction script with
  | done a => exact moves_pure a
  | fail e => exact moves_throw e
  | act a next ih => exact fun s => Trans.trans (steady_perform hin a s) (ih _ _)

theorem moves_finishDocument (registry : Registry) (text : String) :
    Moves Steady (finishDocument registry text) := fun _ => steady_of_eq rfl rfl rfl rfl

theorem moves_sourceOf (job : Job) : Moves Steady (sourceOf job) := by
  unfold sourceOf
  split
  · exact moves_pure _
  · exact moves_body (Path.normal_normal _)

theorem documents_sourceOf (job : Job) (s : Session) :
    (sourceOf job s).2.documents = s.documents := by
  cases hcontent : job.content with
  | some content =>
    rw [sourceOf, hcontent]
    rfl
  | none =>
    rw [sourceOf, hcontent]
    exact documents_body _ s

theorem moves_expandText (hin : ∀ job, Moves Steady (inner job)) (job : Job)
    (text : List Char) : Moves Steady (expandText r inner job text) :=
  (moves_follow hin _).bind fun _ => moves_pure _

theorem moves_renderText (hin : ∀ job, Moves Steady (inner job)) (job : Job)
    (text : List Char) : Moves Steady (renderText r inner job text) := by
  unfold renderText
  split
  · exact moves_expandText hin job text
  · refine Within.moves_between ?_ fun _ _ => steady_of_openDocument
    exact (moves_expandText hin job text).bind fun _ => moves_finishDocument _ _

/-- Of a document of its own nothing is left. -/
theorem documents_renderText (hin : ∀ job, Moves Steady (inner job)) {job : Job}
    (hmode : job.mode = .document) (text : List Char) (s : Session) :
    s.documents = (renderText r inner job text s).2.documents := by
  unfold renderText
  rw [hmode]
  refine documents_of_openDocument (r := r.registry) (Moves.bind (moves_expandText hin job text)
    (fun _ => moves_finishDocument _ _) _)

theorem documents_renderOpen (hin : ∀ job, Moves Steady (inner job)) {job : Job}
    (hmode : job.mode = .document) (s : Session) :
    s.documents = (renderOpen r inner job s).2.documents := by
  have hsource := documents_sourceOf job s
  unfold renderOpen
  cases hout : sourceOf job s with
  | mk result t =>
    rw [hout] at hsource
    cases result with
    | error e =>
      rw [bind_error hout]
      exact hsource.symm
    | ok text =>
      have htext := documents_renderText (r := r) hin hmode text t
      rw [bind_ok hout]
      cases hrender : renderText r inner job text t with
      | mk result u =>
        rw [hrender] at htext
        cases result with
        | error e =>
          rw [bind_error hrender]
          exact hsource.symm.trans htext
        | ok text =>
          rw [bind_ok hrender]
          exact hsource.symm.trans htext

theorem moves_renderOpen (hin : ∀ job, Moves Steady (inner job)) (job : Job) :
    Moves Steady (renderOpen r inner job) :=
  (moves_sourceOf job).bind fun text => (moves_renderText hin job text).bind fun _ => moves_pure _

theorem moves_renderWithin (depth : Nat) (job : Job) :
    Moves Steady (renderWithin r depth job) := by
  induction depth generalizing job with
  | zero =>
    refine moves_get.bind fun s => ?_
    split <;> exact moves_throw _
  | succ depth ih =>
    refine moves_get.bind fun s => ?_
    split
    · exact moves_throw _
    · exact Within.moves_between (moves_renderOpen ih job) fun _ _ => steady_of_enter

theorem documents_renderWithin (depth : Nat) {job : Job} (hmode : job.mode = .document)
    (s : Session) : s.documents = (renderWithin r depth job s).2.documents := by
  have hget : (get : Rendering Session) s = (.ok s, s) := rfl
  cases depth with
  | zero =>
    rw [renderWithin, bind_ok hget]
    split <;> rfl
  | succ depth =>
    rw [renderWithin, bind_ok hget]
    split
    · rfl
    · exact documents_renderOpen (moves_renderWithin depth) hmode (s.enter job.path.normal)

theorem moves_render (template : TemplateScope) (path targetDir : Path) (content : Option String) :
    Moves Steady (render r template path targetDir content) :=
  moves_get.bind fun _ => moves_renderWithin _ _

end Renderer
end AgentDocs
