import AgentDocs.Proofs.Render.Calls

/-! # What a rendering only adds to

Besides what a rendering leaves as it was, a session has a ledger: where the results of files are,
the imported files, and what was mentioned. A relation between sessions that each entry into the
ledger respects, and that looks at nothing else, holds between the beginning and the end of every
rendering, however it ends. -/
namespace AgentDocs
open Effect Store Session

/-- Whether nothing was entered into the ledger. -/
structure Session.SameLedger (s t : Session) : Prop where
  targets : s.targets = t.targets
  imported : s.imported = t.imported
  references : s.references = t.references

instance : Std.Refl Session.SameLedger where
  refl _ := ⟨rfl, rfl, rfl⟩

instance : Trans Session.SameLedger Session.SameLedger Session.SameLedger where
  trans hab hbc := ⟨hab.targets.trans hbc.targets, hab.imported.trans hbc.imported,
    hab.references.trans hbc.references⟩

namespace Renderer

theorem sameLedger_onStore {ε α : Type} (task : Store.Task ε α) :
    Moves SameLedger (Within.onStore task) := fun _ => ⟨rfl, rfl, rfl⟩

theorem sameLedger_body (path : Path) : Moves SameLedger (body path) := by
  intro s
  obtain ⟨_, _, hbody⟩ | ⟨_, _, ⟨_, _, hbody⟩ | ⟨_, _, hbody⟩⟩ := body_cases path s <;>
    rw [hbody] <;> exact ⟨rfl, rfl, rfl⟩

theorem sameLedger_sourceOf (job : Job) : Moves SameLedger (sourceOf job) := by
  unfold sourceOf
  split
  · exact moves_pure _
  · exact sameLedger_body _

theorem sameLedger_finishDocument (registry : Registry) (text : String) :
    Moves SameLedger (finishDocument registry text) := fun _ => ⟨rfl, rfl, rfl⟩

/-- The target that a file is given. -/
def freeFor (r : Renderer) (source : Path) (s : Session) : Path :=
  Imports.freeTarget (s.targets.map (·.2)) r.importsDir source

/-- A file that is there has a target, or is given a free one. -/
theorem placeImport_cases (r : Renderer) (source : Path) (s : Session) :
    ∃ store, (∃ e, placeImport r source s = (.error e, { s with store := store })) ∨
      (∃ target, PathMap.get? source s.targets = some target ∧
        placeImport r source s = (.ok (target, false), { s with store := store })) ∨
      PathMap.get? source s.targets = none ∧
        placeImport r source s = (.ok (r.freeFor source s, true), { s with
          store := store
          targets := PathMap.insert source (r.freeFor source s) s.targets }) := by
  cases hask : isFile source s.store with
  | mk result store =>
    refine ⟨store, ?_⟩
    have haccess : Within.access CommandError.ofStore (isFile source) s
        = (result.mapError .ofStore, { s with store := store }) := by
      simp only [Within.access, Within.onStore, Task.wrapError, hask]
    unfold placeImport
    cases result with
    | error e => exact .inl ⟨.ofStore e, bind_error haccess⟩
    | ok found =>
      rw [bind_ok haccess]
      cases found with
      | false => exact .inl ⟨.missingFile source, rfl⟩
      | true =>
        have hget : (get : Within CommandError Session) { s with store := store }
            = (.ok { s with store := store }, { s with store := store }) := rfl
        right
        simp only [Bool.not_true, Bool.false_eq_true, if_false]
        rw [bind_ok hget]
        cases hplaced : PathMap.get? source s.targets with
        | some target => exact .inl ⟨target, rfl, rfl⟩
        | none => exact .inr ⟨rfl, rfl⟩

end Renderer

structure Ledger (r : Renderer) (R : Session → Session → Prop) : Prop where
  trans : ∀ {s t u}, R s t → R t u → R s u
  /-- Nothing but the ledger counts. -/
  quiet : ∀ {s t : Session}, SameLedger s t → R s t
  place : ∀ (s : Session) (source : Path), PathMap.get? source s.targets = none →
    R s { s with targets := PathMap.insert source (r.freeFor source s) s.targets }
  add : ∀ (s : Session) (f : Imported), R s { s with imported := s.imported ++ [f] }
  mention : ∀ (s : Session) (m : Template.Mention),
    R s { s with references := s.references.mention m }

namespace Ledger
variable {r : Renderer} {R : Session → Session → Prop} {inner : Job → Rendering String}

theorem refl (h : Ledger r R) (s : Session) : R s s := h.quiet ⟨rfl, rfl, rfl⟩

/-- Actions are put together as the relation is. -/
theorem bind {ε α β : Type} {x : Within ε α} {f : α → Within ε β} (h : Ledger r R)
    (hx : Moves R x) (hf : ∀ a, Moves R (f a)) : Moves R (x >>= f) :=
  letI : Trans R R R := ⟨h.trans⟩
  Moves.bind hx hf

/-- A change before and one after that are no entries. -/
theorem between {ε α : Type} {before after : Session → Session} {act : Within ε α}
    (h : Ledger r R) (hbefore : ∀ s, R s (before s)) (hafter : ∀ s, R s (after s))
    (hact : Moves R act) : Moves R (Within.between before after act) := fun s =>
  h.trans (hbefore s) (h.trans (hact _) (hafter _))

theorem sourceOf (h : Ledger r R) (job : Job) : Moves R (Renderer.sourceOf job) :=
  fun s => h.quiet (Renderer.sameLedger_sourceOf job s)

theorem placeImport (h : Ledger r R) (source : Path) : Moves R (Renderer.placeImport r source) := by
  intro s
  obtain ⟨store, ⟨_, hp⟩ | ⟨_, _, hp⟩ | ⟨hnone, hp⟩⟩ := Renderer.placeImport_cases r source s <;>
    rw [hp]
  · exact h.quiet ⟨rfl, rfl, rfl⟩
  · exact h.quiet ⟨rfl, rfl, rfl⟩
  · exact h.trans (h.place s source hnone) (h.quiet ⟨rfl, rfl, rfl⟩)

theorem importTarget (h : Ledger r R) (hin : ∀ job, Moves R (inner job)) (template : TemplateScope)
    (source : Path) : Moves R (Renderer.importTarget r inner template source) := by
  refine h.bind (h.placeImport source) fun placed => ?_
  split
  · exact h.bind (hin _) fun content => h.bind (fun s => h.add s _) fun _ s => h.refl s
  · exact fun s => h.refl s

theorem perform (h : Ledger r R) (hin : ∀ job, Moves R (inner job)) (a : Action) (s : Session) :
    R s (Renderer.perform r inner a s).2 := by
  cases a with
  | ask question => exact h.quiet (Renderer.sameLedger_onStore _ s)
  | render job => exact hin job s
  | importFile template p => exact h.importTarget hin template p s
  | keep name e => exact h.quiet ⟨rfl, rfl, rfl⟩
  | kept => exact h.refl s
  | mention m => exact h.mention s m
  | note => exact h.quiet ⟨rfl, rfl, rfl⟩

theorem follow {ε α : Type} (h : Ledger r R) (hin : ∀ job, Moves R (inner job))
    (script : Script ε α) : Moves R (Renderer.follow r inner script) := by
  induction script with
  | done a => exact fun s => h.refl s
  | fail e => exact fun s => h.refl s
  | act a next ih => exact fun s => h.trans (h.perform hin a s) (ih _ _)

theorem expandText (h : Ledger r R) (hin : ∀ job, Moves R (inner job)) (job : Job)
    (text : List Char) : Moves R (Renderer.expandText r inner job text) :=
  h.bind (h.follow hin _) fun _ s => h.refl s

theorem renderText (h : Ledger r R) (hin : ∀ job, Moves R (inner job)) (job : Job)
    (text : List Char) : Moves R (Renderer.renderText r inner job text) := by
  unfold Renderer.renderText
  split
  · exact h.expandText hin job text
  · exact h.between (fun _ => h.quiet ⟨rfl, rfl, rfl⟩) (fun _ => h.quiet ⟨rfl, rfl, rfl⟩)
      (h.bind (h.expandText hin job text) fun _ s =>
        h.quiet (Renderer.sameLedger_finishDocument _ _ s))

theorem renderOpen (h : Ledger r R) (hin : ∀ job, Moves R (inner job)) (job : Job) :
    Moves R (Renderer.renderOpen r inner job) :=
  h.bind (h.sourceOf job) fun text => h.bind (h.renderText hin job text) fun _ s => h.refl s

theorem renderWithin (h : Ledger r R) (depth : Nat) (job : Job) :
    Moves R (Renderer.renderWithin r depth job) := by
  induction depth generalizing job with
  | zero =>
    refine h.bind (fun s => h.refl s) fun s => ?_
    split <;> exact fun s => h.refl s
  | succ depth ih =>
    refine h.bind (fun s => h.refl s) fun s => ?_
    split
    · exact fun s => h.refl s
    · exact h.between (fun _ => h.quiet ⟨rfl, rfl, rfl⟩) (fun _ => h.quiet ⟨rfl, rfl, rfl⟩)
        (h.renderOpen ih job)

theorem call (h : Ledger r R) (c : Call) : Moves R (r.call c) := by
  intro s
  rw [Renderer.call_apply]
  exact h.renderWithin _ _ s

end Ledger
end AgentDocs
