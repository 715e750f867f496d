import AgentDocs.Proofs.Render.Ledger

/-! # Relations along a rendering

What is remembered, what was entered into the ledger and what has happened in between are related.
A relation of this kind holds from the beginning to the end of any documents, whether they failed
or not, if it can be appended and holds of each single moment. -/
namespace AgentDocs
open Effect Store Session

/-- Whether an action asks for no rendering. -/
def Action.Plain : Action → Prop
  | .render _ | .importFile .. => False
  | _ => True

/-- A relation between two sessions and what happens from the first to the second. -/
structure Traced (r : Renderer) (R : Session → Trace → Session → Prop) : Prop where
  append : ∀ {s t u trace later}, R s trace t → R t later u → R s (trace ++ later) u
  /-- Documents, the journal and what is being rendered do not count. -/
  quiet : ∀ {s t : Session}, s.store = t.store → s.bodies = t.bodies → SameLedger s t → R s [] t
  request : ∀ s depth job, R s [⟨s, depth, .request job⟩] s
  source : ∀ s depth job, R s (Renderer.sourceTrace depth job s) (Renderer.sourceOf job s).2
  plain : ∀ s depth inner {a : Action}, a.Plain →
    R s [⟨s, depth, .action a⟩] (Renderer.perform r inner a s).2
  render : ∀ s depth job, R s [⟨s, depth, .action (.render job)⟩] s
  /-- An import of a file that is not there, or has a target. -/
  placed : ∀ {s t depth template source result}, Renderer.placeImport r source s = (result, t) →
    (∀ target, result ≠ .ok (target, true)) →
    R s [⟨s, depth, .action (.importFile template source)⟩] t
  /-- An import of a file that is given a target and rendered. -/
  given : ∀ {s t depth template source target out trace},
    Renderer.placeImport r source s = (.ok (target, true), t) →
    Renderer.renderWithin r depth (r.importJob template source) t = out → R t trace out.2 →
    R s (⟨s, depth, .action (.importFile template source)⟩ :: trace)
      (Renderer.importing template target out).2

namespace Traced

/-- Whether a relation holds of the files that are rendered at most so deep. -/
def Inner (r : Renderer) (R : Session → Trace → Session → Prop) (depth : Nat) : Prop :=
  ∀ job s, R s (Renderer.traceWithin r depth job s) (Renderer.renderWithin r depth job s).2

variable {r : Renderer} {R : Session → Trace → Session → Prop} {depth : Nat}

theorem refl (h : Traced r R) (s : Session) : R s [] s := h.quiet rfl rfl ⟨rfl, rfl, rfl⟩

/-- Something happens after a quiet change. -/
theorem after_quiet (h : Traced r R) {s t u : Session} {trace : Trace} (hquiet : R s [] t)
    (htrace : R t trace u) : R s trace u := h.append hquiet htrace

/-- Something happens before a quiet change. -/
theorem before_quiet (h : Traced r R) {s t u : Session} {trace : Trace} (htrace : R s trace t)
    (hquiet : R t [] u) : R s trace u := List.append_nil trace ▸ h.append htrace hquiet

theorem perform (h : Traced r R) (hin : Inner r R depth) (a : Action) (s : Session) :
    R s (⟨s, depth, .action a⟩ :: Renderer.performTrace r (Renderer.traceWithin r depth) a s)
      (Renderer.perform r (Renderer.renderWithin r depth) a s).2 := by
  cases a with
  | render job => exact h.append (h.render s depth job) (hin job s)
  | importFile template source =>
    rw [Renderer.performTrace, Renderer.perform]
    cases hplace : Renderer.placeImport r source s with
    | mk result t =>
      cases result with
      | error e =>
        rw [Renderer.importTarget_of_error hplace]
        exact h.placed hplace fun target => nofun
      | ok placed =>
        obtain ⟨target, new⟩ := placed
        rw [Renderer.importTarget_of_ok hplace]
        cases new with
        | false => exact h.placed hplace fun target => nofun
        | true => exact h.given hplace rfl (hin _ t)
  | ask | keep | kept | mention | note => exact h.plain s depth _ trivial

theorem follow (h : Traced r R) (hin : Inner r R depth) {ε α : Type} (script : Script ε α)
    (s : Session) :
    R s (Renderer.followTrace r (Renderer.renderWithin r depth) (Renderer.traceWithin r depth)
        depth script s)
      (Renderer.follow r (Renderer.renderWithin r depth) script s).2 := by
  induction script generalizing s with
  | done a => exact h.refl s
  | fail e => exact h.refl s
  | act a next ih => exact h.append (h.perform hin a s) (ih _ _)

theorem ending (h : Traced r R) (mode : Mode) (out : Except RenderError (List Char) × Session) :
    R out.2 [] (r.ending mode out).2 := by
  obtain ⟨result, s⟩ := out
  cases mode <;> cases result <;> exact h.quiet rfl rfl ⟨rfl, rfl, rfl⟩

theorem renderOpen (h : Traced r R) (hin : Inner r R depth) (job : Job) (s : Session) :
    R s (Renderer.openTrace r (Renderer.renderWithin r depth) (Renderer.traceWithin r depth)
        depth job s)
      (Renderer.renderOpen r (Renderer.renderWithin r depth) job s).2 := by
  have hsource := h.source s depth job
  rw [Renderer.openTrace]
  cases hout : Renderer.sourceOf job s with
  | mk result t =>
    rw [hout] at hsource
    cases result with
    | error e =>
      rw [Renderer.renderOpen_error hout, List.append_nil]
      exact hsource
    | ok text =>
      have hopened : R t [] (r.opened job.mode t) := by
        cases job.mode <;> exact h.quiet rfl rfl ⟨rfl, rfl, rfl⟩
      rw [Renderer.renderOpen_ok hout]
      exact h.append hsource
        (h.before_quiet (h.after_quiet hopened (h.follow hin _ _)) (h.ending job.mode _))

theorem renderWithin (h : Traced r R) (depth : Nat) : Inner r R depth := by
  induction depth with
  | zero =>
    intro job s
    cases hopen : Renderer.isOpen job s with
    | true =>
      rw [Renderer.renderWithin_of_isOpen hopen]
      exact h.request s 0 job
    | false =>
      rw [Renderer.renderWithin_zero hopen]
      exact h.request s 0 job
  | succ depth ih =>
    intro job s
    rw [Renderer.traceWithin]
    cases hopen : Renderer.isOpen job s with
    | true =>
      rw [Renderer.renderWithin_of_isOpen hopen]
      exact h.request s (depth + 1) job
    | false =>
      rw [Renderer.renderWithin_succ hopen]
      have henter : R s [] (s.enter job.path.normal) := h.quiet rfl rfl ⟨rfl, rfl, rfl⟩
      refine h.append (h.request s (depth + 1) job) ?_
      refine h.before_quiet (h.after_quiet henter (h.renderOpen ih job _)) ?_
      exact h.quiet rfl rfl ⟨rfl, rfl, rfl⟩

theorem callTrace (h : Traced r R) (c : Call) (s : Session) :
    R s (r.callTrace c s) (r.call c s).2 := by
  rw [Renderer.call_apply]
  exact h.renderWithin _ c.job s

/-- The relation holds of all documents that are rendered one after the other. -/
theorem callsTrace (h : Traced r R) (calls : List Call) (s : Session) :
    R s (r.callsTrace calls s) (r.after calls s) := by
  induction calls generalizing s with
  | nil => exact h.refl s
  | cons c calls ih => exact h.append (h.callTrace c s) (ih _)

end Traced
end AgentDocs
