import AgentDocs.Proofs.Render.Steady

/-! # What happens in a rendering

The trace of a rendering lists, in order, when a rendering is asked for, when a body is read that
is not remembered, and what scripts do, each with the session in which it happens. It follows the
rendering itself: all sessions are those that the rendering goes through. -/
namespace AgentDocs
open Effect

inductive Event where
  | request (job : Job)
  /-- A body is read. -/
  | source (path : Path)
  | action (a : Action)

structure Moment where
  session : Session
  /-- How many more files may be rendered within one another. -/
  depth : Nat
  event : Event

abbrev Trace := List Moment

namespace Renderer

/-- The moments of the rendering that an action asks for, if it does. -/
def performTrace (r : Renderer) (trace : Job → Session → Trace) : Action → Session → Trace
  | .render job, s => trace job s
  | .importFile template source, s =>
    match placeImport r source s with
    | (.ok placed, s) => if placed.2 then trace (r.importJob template source) s else []
    | (.error _, _) => []
  | _, _ => []

def followTrace (r : Renderer) (inner : Job → Rendering String) (trace : Job → Session → Trace)
    (depth : Nat) {ε α : Type} : Script ε α → Session → Trace
  | .done _, _ => []
  | .fail _, _ => []
  | .act a next, s =>
    let after := perform r inner a s
    ⟨s, depth, .action a⟩ :: performTrace r trace a s
      ++ followTrace r inner trace depth (next after.1) after.2

def sourceTrace (depth : Nat) (job : Job) (s : Session) : Trace :=
  match job.content with
  | some _ => []
  | none =>
    if PathMap.has job.path.normal s.bodies then [] else [⟨s, depth, .source job.path.normal⟩]

/-- The session in which the script of a text begins. -/
def opened (r : Renderer) (mode : Mode) (s : Session) : Session :=
  match mode with
  | .part => s
  | .document => s.openDocument r.registry

/-- The script for the text of a file. -/
def scriptOf (r : Renderer) (job : Job) (text : List Char) : Script RenderError (List Char) :=
  expand r.registry (r.scopeOf job) job.path.normal text

def openTrace (r : Renderer) (inner : Job → Rendering String) (trace : Job → Session → Trace)
    (depth : Nat) (job : Job) (s : Session) : Trace :=
  sourceTrace depth job s ++
    match sourceOf job s with
    | (.ok text, s) => followTrace r inner trace depth (r.scriptOf job text) (r.opened job.mode s)
    | (.error _, _) => []

/-- Whether the file of a job is being rendered. -/
def isOpen (job : Job) (s : Session) : Bool := s.pending.any job.path.normal.same

def traceWithin (r : Renderer) : Nat → Job → Session → Trace
  | 0, job, s => [⟨s, 0, .request job⟩]
  | depth + 1, job, s =>
    ⟨s, depth + 1, .request job⟩ ::
      if isOpen job s then []
      else openTrace r (renderWithin r depth) (traceWithin r depth) depth job
        (s.enter job.path.normal)

end Renderer

/-- The files that are being rendered within one another once an event has happened, the innermost
first. -/
def Moment.chain (m : Moment) : List Path :=
  match m.event with
  | .request job =>
    if Renderer.isOpen job m.session then m.session.pending
    else job.path.normal :: m.session.pending
  | _ => m.session.pending

namespace Renderer

/-! ## An imported file -/

/-- What an import makes of how the file was rendered. -/
def importing (template : TemplateScope) (target : Path)
    (out : Except RenderError String × Session) : Except CommandError Path × Session :=
  match out with
  | (.error e, s) => (.error (.ofRender e), s)
  | (.ok content, s) =>
    (.ok target, { s with imported := s.imported ++ [⟨target, content, template.source.relative⟩] })

theorem importTarget_of_error {r : Renderer} {inner : Job → Rendering String}
    {template : TemplateScope} {source : Path} {s t : Session} {e : CommandError}
    (h : placeImport r source s = (.error e, t)) :
    importTarget r inner template source s = (.error e, t) := bind_error h

/-- A file that is placed for the first time is rendered. -/
theorem importTarget_of_ok {r : Renderer} {inner : Job → Rendering String}
    {template : TemplateScope} {source : Path} {s t : Session} {placed : Path × Bool}
    (h : placeImport r source s = (.ok placed, t)) :
    importTarget r inner template source s =
      if placed.2 then importing template placed.1 (inner (r.importJob template source) t)
      else (.ok placed.1, t) := by
  rw [importTarget, bind_ok h]
  split
  · cases hin : inner (r.importJob template source) t with
    | mk result u =>
      have hwrap : Within.wrapError CommandError.ofRender (inner (r.importJob template source)) t
          = (result.mapError .ofRender, u) := by
        rw [Within.wrapError, hin]
      cases result with
      | error e => exact bind_error hwrap
      | ok content => exact bind_ok hwrap
  · rfl

/-- A file is placed only if it is there; otherwise no rendering is to blame. -/
theorem isFile_of_placeImport {r : Renderer} {source : Path} {s t : Session}
    {placed : Path × Bool} (h : placeImport r source s = (.ok placed, t)) :
    (Store.isFile source s.store).1 = .ok true := by
  obtain ⟨found, u, hfile, h⟩ := exists_of_bind_ok h
  cases found with
  | false => cases h
  | true =>
    have hresult : (Store.isFile source s.store).1.mapError CommandError.ofStore = .ok true :=
      congrArg (·.1) hfile
    exact Except.of_mapError_ok hresult

theorem ne_ofRender_of_placeImport {r : Renderer} {source : Path} {s t : Session}
    {e : CommandError} (h : placeImport r source s = (.error e, t)) (e' : RenderError) :
    e ≠ .ofRender e' := by
  rcases of_bind_error h with h | ⟨found, u, _, h⟩
  · have hresult : (Store.isFile source s.store).1.mapError CommandError.ofStore = .error e :=
      congrArg (·.1) h
    rintro rfl
    cases hf : (Store.isFile source s.store).1 <;> rw [hf] at hresult <;> cases hresult
  · cases found with
    | false =>
      cases h
      nofun
    | true =>
      -- from here on nothing fails
      rcases of_bind_error h with h | ⟨now, _, _, h⟩
      · cases h
      cases hget : PathMap.get? source now.targets with
      | some target =>
        rw [hget] at h
        cases h
      | none =>
        rw [hget] at h
        rcases of_bind_error h with h | ⟨_, _, _, h⟩ <;> cases h

/-! ## A rendering and its script -/

theorem get_apply (s : Session) : (get : Rendering Session) s = (.ok s, s) := rfl

theorem renderWithin_of_isOpen {r : Renderer} {job : Job} {s : Session} (h : isOpen job s = true)
    (depth : Nat) :
    renderWithin r depth job s = (.error (.circularInclusion job.path.normal), s) := by
  unfold isOpen at h
  cases depth with
  | zero =>
    rw [renderWithin, bind_ok (get_apply s), if_pos h]
    rfl
  | succ depth =>
    rw [renderWithin, bind_ok (get_apply s), if_pos h]
    rfl

theorem renderWithin_zero {r : Renderer} {job : Job} {s : Session} (h : isOpen job s = false) :
    renderWithin r 0 job s = (.error (.tooDeep job.path.normal), s) := by
  unfold isOpen at h
  rw [renderWithin, bind_ok (get_apply s), if_neg (Bool.eq_false_iff.1 h)]
  rfl

theorem renderWithin_succ {r : Renderer} {job : Job} {s : Session} (h : isOpen job s = false)
    (depth : Nat) :
    renderWithin r (depth + 1) job s =
      Within.between (Session.enter job.path.normal) Session.leave
        (renderOpen r (renderWithin r depth) job) s := by
  unfold isOpen at h
  rw [renderWithin, bind_ok (get_apply s), if_neg (Bool.eq_false_iff.1 h)]

/-- What a rendering makes of how its script ended. -/
def ending (r : Renderer) (mode : Mode) (out : Except RenderError (List Char) × Session) :
    Except RenderError String × Session :=
  match mode, out with
  | .part, (result, s) => (result.map String.ofList, s)
  | .document, (.error e, s) => (.error e, s.closeDocument r.registry)
  | .document, (.ok text, s) =>
    let finished := finishDocument r.registry (String.ofList text) s
    (finished.1, finished.2.closeDocument r.registry)

theorem renderOpen_error {r : Renderer} {inner : Job → Rendering String} {job : Job}
    {s t : Session} {e : RenderError} (h : sourceOf job s = (.error e, t)) :
    renderOpen r inner job s = (.error e, t) := bind_error h

theorem expandText_of_follow {r : Renderer} {inner : Job → Rendering String} {job : Job}
    {text : List Char} {s t : Session} {result : Except RenderError (List Char)}
    (h : follow r inner (r.scriptOf job text) s = (result, t)) :
    expandText r inner job text s = (result.map String.ofList, t) := by
  cases result with
  | error e => exact bind_error h
  | ok text => exact bind_ok h

theorem renderText_of_follow {r : Renderer} {inner : Job → Rendering String} {job : Job}
    {text : List Char} {s t : Session} {result : Except RenderError (List Char)}
    (h : follow r inner (r.scriptOf job text) (r.opened job.mode s) = (result, t)) :
    renderText r inner job text s = r.ending job.mode (result, t) := by
  unfold renderText
  cases hmode : job.mode with
  | part =>
    rw [hmode] at h
    exact expandText_of_follow h
  | document =>
    rw [hmode] at h
    have hexpand := expandText_of_follow h
    cases result with
    | error e =>
      have hbind := bind_error (f := finishDocument r.registry) hexpand
      exact congrArg (fun out => (out.1, out.2.closeDocument r.registry)) hbind
    | ok text =>
      have hbind := bind_ok (f := finishDocument r.registry) hexpand
      exact congrArg (fun out => (out.1, out.2.closeDocument r.registry)) hbind

theorem renderOpen_ok {r : Renderer} {inner : Job → Rendering String} {job : Job} {s t : Session}
    {text : List Char} (h : sourceOf job s = (.ok text, t)) :
    renderOpen r inner job s =
      let out := r.ending job.mode (follow r inner (r.scriptOf job text) (r.opened job.mode t))
      (out.1.map Text.trimmed, out.2) := by
  have htext : renderText r inner job text t = r.ending job.mode
      (follow r inner (r.scriptOf job text) (r.opened job.mode t)) := renderText_of_follow rfl
  rw [renderOpen, bind_ok h]
  dsimp only
  rw [← htext]
  cases hout : renderText r inner job text t with
  | mk result u =>
    cases result with
    | error e => exact bind_error hout
    | ok text => exact bind_ok hout

/-- What a rendering that ends well has done: it has read a text and followed its script. -/
theorem exists_of_renderWithin_ok {r : Renderer} {depth : Nat} {job : Job} {s t : Session}
    {content : String} (h : renderWithin r depth job s = (.ok content, t)) :
    ∃ least text u body v, depth = least + 1 ∧
      sourceOf job (s.enter job.path.normal) = (.ok text, u) ∧
      follow r (renderWithin r least) (r.scriptOf job text) (r.opened job.mode u) = (.ok body, v) ∧
      (r.ending job.mode (.ok body, v)).1.map Text.trimmed = .ok content ∧
      t = (r.ending job.mode (.ok body, v)).2.leave := by
  cases hopen : isOpen job s with
  | true =>
    rw [renderWithin_of_isOpen hopen] at h
    cases h
  | false =>
    cases depth with
    | zero =>
      rw [renderWithin_zero hopen] at h
      cases h
    | succ least =>
      rw [renderWithin_succ hopen, Within.between] at h
      cases hsource : sourceOf job (s.enter job.path.normal) with
      | mk result u =>
        cases result with
        | error e =>
          rw [renderOpen_error hsource] at h
          cases h
        | ok text =>
          rw [renderOpen_ok hsource] at h
          cases hbody : follow r (renderWithin r least) (r.scriptOf job text)
              (r.opened job.mode u) with
          | mk result v =>
            rw [hbody] at h
            cases result with
            | error e => cases hmode : job.mode <;> rw [hmode] at h <;> cases h
            | ok body =>
              exact ⟨least, text, u, body, v, rfl, rfl, hbody, congrArg (·.1) h,
                (congrArg (·.2) h).symm⟩

end Renderer
end AgentDocs
