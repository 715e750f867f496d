import AgentDocs.Proofs.Command.Links
import AgentDocs.Proofs.Render.Ledger

/-! # The snippets that a rendering dispatches

A text is expanded snippet by snippet, from the last one to the first, and each script is followed
to its end before the next one begins. The dispatches of a rendering are listed in the order in
which they begin, those of the files that a snippet has rendered right behind it. -/
namespace AgentDocs
open Effect Markup Store Session

/-- A snippet that is dispatched, and what came of it. -/
structure Dispatch where
  scope : Scope
  path : Path
  snippet : Snippet
  before : Session
  result : Except RenderError (Option (List Char))
  after : Session

/-- What is listed behind an action, if there is an answer. -/
def Within.ifAnswered {ε α β : Type} (out : Except ε α × Session) (next : α → Session → List β) :
    List β :=
  match out with
  | (.ok a, s) => next a s
  | (.error _, _) => []

theorem Within.exists_of_mem_ifAnswered {ε α β : Type} {out : Except ε α × Session}
    {next : α → Session → List β} {b : β} (h : b ∈ ifAnswered out next) :
    ∃ a s, out = (.ok a, s) ∧ b ∈ next a s := by
  obtain ⟨result, s⟩ := out
  cases result with
  | ok a => exact ⟨a, s, rfl, h⟩
  | error e => cases h

namespace Renderer
variable {r : Renderer} {inner : Job → Rendering String}

/-! ## Following scripts one after the other -/

theorem follow_bind {ε α β : Type} (script : Script ε α) (f : α → Script ε β) :
    follow r inner (script >>= f) = (follow r inner script >>= fun a => follow r inner (f a)) := by
  induction script with
  | done a => rfl
  | fail e => rfl
  | act a next ih => exact funext fun s => congrFun (ih _) _

theorem follow_mapError {ε δ α : Type} (wrap : ε → δ) (script : Script ε α) (s : Session) :
    follow r inner (script.mapError wrap) s
      = ((follow r inner script s).1.mapError wrap, (follow r inner script s).2) := by
  induction script generalizing s with
  | done a => rfl
  | fail e => rfl
  | act a next ih => exact ih _ _

theorem follow_ofExcept {ε α : Type} (result : Except ε α) (s : Session) :
    follow r inner (Script.ofExcept result) s = (result, s) := by
  cases result <;> rfl

/-! ## Listing dispatches -/

/-- What happens in the rendering that an action asks for, if it does. -/
def performNested {β : Type} (r : Renderer) (nested : Job → Session → List β) :
    Action → Session → List β
  | .render job, s => nested job s
  | .importFile template source, s =>
    Within.ifAnswered (placeImport r source s) fun placed s =>
      if placed.2 then nested (r.importJob template source) s else []
  | _, _ => []

def scriptDispatches (r : Renderer) (inner : Job → Rendering String)
    (nested : Job → Session → List Dispatch) {ε α : Type} : Script ε α → Session → List Dispatch
  | .done _, _ => []
  | .fail _, _ => []
  | .act a next, s =>
    let after := perform r inner a s
    performNested r nested a s ++ scriptDispatches r inner nested (next after.1) after.2

/-- The dispatches of snippets, which are given from the last one to the first. -/
def snippetDispatches (r : Renderer) (inner : Job → Rendering String)
    (nested : Job → Session → List Dispatch) (scope : Scope) (path : Path) :
    List Snippet → Session → List Dispatch
  | [], _ => []
  | snippet :: earlier, s =>
    let script := dispatch r.registry scope path snippet
    let out := follow r inner script s
    ⟨scope, path, snippet, s, out.1, out.2⟩ :: scriptDispatches r inner nested script s
      ++ Within.ifAnswered out fun _ s => snippetDispatches r inner nested scope path earlier s

def textDispatches (r : Renderer) (inner : Job → Rendering String)
    (nested : Job → Session → List Dispatch) (scope : Scope) (path : Path) (text : List Char)
    (s : Session) : List Dispatch :=
  match fillVariables r.registry scope.template.parameters path text with
  | .error _ => []
  | .ok filled =>
    if scope.template.dispatches then
      snippetDispatches r inner nested scope path (snippetsIn filled).reverse s
    else []

def openDispatches (r : Renderer) (inner : Job → Rendering String)
    (nested : Job → Session → List Dispatch) (job : Job) (s : Session) : List Dispatch :=
  Within.ifAnswered (sourceOf job s) fun text s =>
    textDispatches r inner nested (r.scopeOf job) job.path.normal text (r.opened job.mode s)

def dispatchesWithin (r : Renderer) : Nat → Job → Session → List Dispatch
  | 0, _, _ => []
  | depth + 1, job, s =>
    if isOpen job s then []
    else openDispatches r (renderWithin r depth) (dispatchesWithin r depth) job
      (s.enter job.path.normal)

/-- The dispatches of a document. -/
def callDispatches (r : Renderer) (c : Call) (s : Session) : List Dispatch :=
  dispatchesWithin r (depthFor s.store) c.job s

section
variable {nested : Job → Session → List Dispatch}

theorem scriptDispatches_bind {ε α β : Type} (script : Script ε α) (f : α → Script ε β)
    (s : Session) :
    scriptDispatches r inner nested (script >>= f) s
      = scriptDispatches r inner nested script s
        ++ Within.ifAnswered (follow r inner script s) fun a t =>
          scriptDispatches r inner nested (f a) t := by
  induction script generalizing s with
  | done a => rfl
  | fail e => rfl
  | act a next ih =>
    have hnext := ih (perform r inner a s).1 (perform r inner a s).2
    exact (congrArg (performNested r nested a s ++ ·) hnext).trans (List.append_assoc _ _ _).symm

theorem scriptDispatches_mapError {ε δ α : Type} (wrap : ε → δ) (script : Script ε α)
    (s : Session) :
    scriptDispatches r inner nested (script.mapError wrap) s
      = scriptDispatches r inner nested script s := by
  induction script generalizing s with
  | done a => rfl
  | fail e => rfl
  | act a next ih => exact congrArg (performNested r nested a s ++ ·) (ih _ _)

theorem scriptDispatches_ofExcept {ε α : Type} (result : Except ε α) (s : Session) :
    scriptDispatches r inner nested (Script.ofExcept result) s = [] := by
  cases result <;> rfl

/-- What a snippet makes of the text or the error of its command. -/
def answerOf (path : Path) (item : Snippet) (result : Except CommandError String) :
    Except RenderError (Option (List Char)) :=
  (result.map fun text => some text.toList).mapError (.ofCommand path item.name)

variable {registry : Registry} {scope : Scope} {path : Path} {item : Snippet} {c : Command}

theorem follow_dispatch_of_find? (h : registry.find? item.name = some c) (s : Session) :
    follow r inner (dispatch registry scope path item) s
      = (answerOf path item (follow r inner (c.invoke scope item.arguments) s).1,
        (follow r inner (c.invoke scope item.arguments) s).2) := by
  unfold dispatch
  rw [h]
  dsimp only
  have hinvoke := @follow_mapError r inner _ _ _ (RenderError.ofCommand path item.name)
    (c.invoke scope item.arguments) s
  rw [follow_bind]
  cases hout : follow r inner (c.invoke scope item.arguments) s with
  | mk result t =>
    rw [hout] at hinvoke
    cases result with
    | error e => exact bind_error hinvoke
    | ok text => exact bind_ok hinvoke

theorem scriptDispatches_dispatch_of_find? (h : registry.find? item.name = some c) (s : Session) :
    scriptDispatches r inner nested (dispatch registry scope path item) s
      = scriptDispatches r inner nested (c.invoke scope item.arguments) s := by
  unfold dispatch
  rw [h]
  dsimp only
  rw [scriptDispatches_bind, scriptDispatches_mapError]
  have hrest (out : Except RenderError String × Session) : (Within.ifAnswered out fun text t =>
      scriptDispatches r inner nested
        (pure (some text.toList) : Script RenderError (Option (List Char))) t) = [] := by
    unfold Within.ifAnswered
    split <;> rfl
  rw [hrest, List.append_nil]

end

end Renderer

/-! ## Relations along dispatches -/

namespace Renderer

/-- A relation between two sessions and what is dispatched from the first to the second, that holds
of one thing after the other if it holds of each. -/
structure Joins (R : Session → List Dispatch → Session → Prop) : Prop where
  refl : ∀ s, R s [] s
  append : ∀ {s t u ds more}, R s ds t → R t more u → R s (ds ++ more) u

namespace Joins
variable {r : Renderer} {inner : Job → Rendering String} {nested : Job → Session → List Dispatch}
  {R : Session → List Dispatch → Session → Prop}

theorem script (h : Joins R) {c : Contract} (hanswers : ∀ a x, c.answers a x)
    (hperform : ∀ a s, c.asks a →
      R s (performNested r nested a s) (Renderer.perform r inner a s).2)
    {ε α : Type} {script : Script ε α} (hscript : script.Meets c (fun _ => True) fun _ => True)
    (s : Session) :
    R s (scriptDispatches r inner nested script s) (follow r inner script s).2 := by
  induction script generalizing s with
  | done a => exact h.refl s
  | fail e => exact h.refl s
  | act a next ih =>
    exact h.append (hperform a s hscript.1) (ih _ (hscript.2 _ (hanswers a _)) _)

/-- The rest of a text is only expanded if the snippets behind it did not fail. -/
theorem snippets (h : Joins R) {scope : Scope} {path : Path}
    (hsnippet : ∀ item s,
      let script := dispatch r.registry scope path item
      let out := follow r inner script s
      R s (⟨scope, path, item, s, out.1, out.2⟩ :: scriptDispatches r inner nested script s) out.2)
    (items : List Snippet) (text done : List Char) (s : Session) :
    R s (snippetDispatches r inner nested scope path items s)
      (follow r inner
        (spliceBack Snippet.span (dispatch r.registry scope path) items text done) s).2 := by
  induction items generalizing text done s with
  | nil => exact h.refl s
  | cons item earlier ih =>
    have hfirst := hsnippet item s
    rw [spliceBack, follow_bind, snippetDispatches]
    dsimp only at hfirst ⊢
    cases hout : follow r inner (dispatch r.registry scope path item) s with
    | mk result t =>
      rw [hout] at hfirst
      cases result with
      | error e =>
        rw [bind_error hout]
        exact h.append hfirst (h.refl t)
      | ok new =>
        rw [bind_ok hout]
        exact h.append hfirst (ih _ _ t)

theorem text (h : Joins R) {job : Job}
    (hsnippet : ∀ item s,
      let script := dispatch r.registry (r.scopeOf job) job.path.normal item
      let out := follow r inner script s
      R s (⟨r.scopeOf job, job.path.normal, item, s, out.1, out.2⟩ ::
        scriptDispatches r inner nested script s) out.2)
    (text : List Char) (s : Session) :
    R s (textDispatches r inner nested (r.scopeOf job) job.path.normal text s)
      (follow r inner (r.scriptOf job text) s).2 := by
  unfold textDispatches scriptOf expand
  cases hfill : fillVariables r.registry (r.scopeOf job).template.parameters job.path.normal
      text with
  | error e => exact h.refl s
  | ok filled =>
    have hfilled : follow r inner (Script.ofExcept (.ok filled)) s
        = ((.ok filled : Except RenderError (List Char)), s) := rfl
    rw [follow_bind, bind_ok hfilled]
    dsimp only
    split
    · exact h.snippets hsnippet _ _ _ s
    · exact h.refl s

end Joins

/-- A relation between two sessions and what is dispatched from the first to the second, that each
entry into the ledger respects and that looks at nothing else of the sessions. -/
structure Listing (r : Renderer) (R : Session → List Dispatch → Session → Prop) : Prop where
  append : ∀ {s t u ds more}, R s ds t → R t more u → R s (ds ++ more) u
  quiet : ∀ {s t : Session}, SameLedger s t → R s [] t
  place : ∀ (s : Session) (source : Path), PathMap.get? source s.targets = none →
    R s [] { s with targets := PathMap.insert source (r.freeFor source s) s.targets }
  add : ∀ (s : Session) (f : Imported), R s [] { s with imported := s.imported ++ [f] }

/-- Whether a relation holds of the files that are rendered at most so deep, for some jobs. -/
def Inner (r : Renderer) (R : Session → List Dispatch → Session → Prop) (Fit : Job → Prop)
    (depth : Nat) : Prop :=
  ∀ job s, Fit job → R s (dispatchesWithin r depth job s) (renderWithin r depth job s).2

/-- Whether a relation passes from the files that a snippet has rendered to the snippet. -/
def Snippets (r : Renderer) (R : Session → List Dispatch → Session → Prop) (Fit : Job → Prop) :
    Prop :=
  ∀ depth job item s, Fit job → Inner r R Fit depth →
    let script := dispatch r.registry (r.scopeOf job) job.path.normal item
    let out := follow r (renderWithin r depth) script s
    R s (⟨r.scopeOf job, job.path.normal, item, s, out.1, out.2⟩ ::
      scriptDispatches r (renderWithin r depth) (dispatchesWithin r depth) script s) out.2

end Renderer

/-- What a script may do for a relation along dispatches. -/
def Contract.listed (r : Renderer) (R : Session → List Dispatch → Session → Prop)
    (Fit : Job → Prop) : Contract where
  asks
    | .render job => Fit job
    | .importFile template source => Fit (r.importJob template source)
    | .mention m => ∀ s : Session, R s [] { s with references := s.references.mention m }
    | _ => True
  answers _ _ := True

namespace Renderer.Listing
variable {r : Renderer} {R : Session → List Dispatch → Session → Prop} {Fit : Job → Prop}
  {depth : Nat}

theorem refl (h : Listing r R) (s : Session) : R s [] s := h.quiet ⟨rfl, rfl, rfl⟩

/-- What is dispatched after a change of something else. -/
theorem behind (h : Listing r R) {s t u : Session} {ds : List Dispatch} (hst : R s [] t)
    (htu : R t ds u) : R s ds u := h.append hst htu

/-- What is dispatched before a change of something else. -/
theorem before (h : Listing r R) {s t u : Session} {ds : List Dispatch} (hst : R s ds t)
    (htu : R t [] u) : R s ds u := List.append_nil ds ▸ h.append hst htu

theorem placeImport (h : Listing r R) (source : Path) (s : Session) :
    R s [] (Renderer.placeImport r source s).2 := by
  obtain ⟨store, ⟨_, hp⟩ | ⟨_, _, hp⟩ | ⟨hnone, hp⟩⟩ := placeImport_cases r source s <;> rw [hp]
  · exact h.quiet ⟨rfl, rfl, rfl⟩
  · exact h.quiet ⟨rfl, rfl, rfl⟩
  · exact h.append (h.place s source hnone) (h.quiet ⟨rfl, rfl, rfl⟩)

theorem perform (h : Listing r R) (hin : Inner r R Fit depth) {a : Action}
    (ha : (Contract.listed r R Fit).asks a) (s : Session) :
    R s (performNested r (dispatchesWithin r depth) a s)
      (Renderer.perform r (renderWithin r depth) a s).2 := by
  cases a with
  | render job => exact hin job s ha
  | importFile template source =>
    rw [performNested, Renderer.perform]
    have hplace := h.placeImport source s
    cases hp : Renderer.placeImport r source s with
    | mk result t =>
      rw [hp] at hplace
      cases result with
      | error e =>
        rw [importTarget_of_error hp]
        exact hplace
      | ok placed =>
        obtain ⟨target, new⟩ := placed
        rw [importTarget_of_ok hp]
        cases new with
        | false => exact hplace
        | true =>
          have hrender := h.behind hplace (hin _ t ha)
          dsimp only [Within.ifAnswered, if_true]
          cases hout : renderWithin r depth (r.importJob template source) t with
          | mk result u =>
            rw [hout] at hrender
            cases result with
            | error e => exact hrender
            | ok content => exact h.before hrender (h.add u _)
  | mention m => exact ha s
  | ask | keep | note => exact h.quiet ⟨rfl, rfl, rfl⟩
  | kept => exact h.refl s

theorem joins (h : Listing r R) : Joins R := ⟨h.refl, h.append⟩

theorem script (h : Listing r R) (hin : Inner r R Fit depth) {ε α : Type} {script : Script ε α}
    (hscript : script.Meets (.listed r R Fit) (fun _ => True) fun _ => True) (s : Session) :
    R s (scriptDispatches r (renderWithin r depth) (dispatchesWithin r depth) script s)
      (follow r (renderWithin r depth) script s).2 :=
  h.joins.script (fun _ _ => trivial) (fun _ s ha => h.perform hin ha s) hscript s

theorem renderOpen (h : Listing r R) (hsnippets : Snippets r R Fit) (hin : Inner r R Fit depth)
    {job : Job} (hjob : Fit job) (s : Session) :
    R s (openDispatches r (renderWithin r depth) (dispatchesWithin r depth) job s)
      (Renderer.renderOpen r (renderWithin r depth) job s).2 := by
  have hsource := h.quiet (sameLedger_sourceOf job s)
  unfold openDispatches
  cases hout : sourceOf job s with
  | mk result t =>
    rw [hout] at hsource
    cases result with
    | error e =>
      rw [renderOpen_error hout]
      exact hsource
    | ok text =>
      rw [renderOpen_ok hout]
      have hopened : R t [] (r.opened job.mode t) := by
        cases job.mode <;> exact h.quiet ⟨rfl, rfl, rfl⟩
      have hending : ∀ out : Except RenderError (List Char) × Session,
          R out.2 [] (r.ending job.mode out).2 := by
        rintro ⟨result, u⟩
        cases job.mode <;> cases result <;> exact h.quiet ⟨rfl, rfl, rfl⟩
      have htext := h.joins.text (fun item s => hsnippets depth job item s hjob hin) text
        (r.opened job.mode t)
      exact h.before (h.behind (h.append hsource hopened) htext) (hending _)

/-- A relation along dispatches holds from the beginning of a rendering to its end. -/
theorem inner (h : Listing r R) (hsnippets : Snippets r R Fit) (depth : Nat) :
    Inner r R Fit depth := by
  induction depth with
  | zero =>
    intro job s _
    rw [dispatchesWithin]
    cases hopen : isOpen job s with
    | true =>
      rw [renderWithin_of_isOpen hopen]
      exact h.refl s
    | false =>
      rw [renderWithin_zero hopen]
      exact h.refl s
  | succ depth ih =>
    intro job s hjob
    rw [dispatchesWithin]
    cases hopen : isOpen job s with
    | true =>
      rw [renderWithin_of_isOpen hopen]
      exact h.refl s
    | false =>
      rw [renderWithin_succ hopen]
      have henter : R s [] (s.enter job.path.normal) := h.quiet ⟨rfl, rfl, rfl⟩
      exact h.before (h.behind henter (h.renderOpen hsnippets ih hjob _)) (h.quiet ⟨rfl, rfl, rfl⟩)

theorem call (h : Listing r R) (hsnippets : Snippets r R Fit) {c : Call} (hc : Fit c.job)
    (s : Session) : R s (r.callDispatches c s) (r.call c s).2 := by
  rw [call_apply]
  exact h.inner hsnippets _ c.job s hc

end Renderer.Listing

/-! ## Where a dispatch stands -/

/-- What the commands of a registry may have rendered, if jobs have a property that passes on. -/
def Contract.fit (r : Renderer) (Fit : Job → Prop) : Contract where
  asks
    | .render job => Fit job
    | .importFile template source => Fit (r.importJob template source)
    | _ => True
  answers _ _ := True

/-- Whether a property of jobs passes on to all jobs inside. -/
def Renderer.Fits (r : Renderer) (Fit : Job → Prop) : Prop :=
  ∀ job, Fit job → ∀ c ∈ r.registry, ∀ args,
    (c.invoke (r.scopeOf job) args).Meets (.fit r Fit) (fun _ => True) fun _ => True

theorem Renderer.fits_true (r : Renderer) : r.Fits fun _ => True := fun _ _ _ _ _ =>
  Script.meets_of_asks (fun a => by cases a <;> trivial) _

/-- A dispatch between two sessions: its script was followed, in the scope of a job, and the ledger
goes from the first session to the script and from there to the second. -/
structure Dispatch.Between (r : Renderer) (R : Session → Session → Prop) (Fit : Job → Prop)
    (s : Session) (d : Dispatch) (t : Session) : Prop where
  followed : ∃ depth, Renderer.follow r (Renderer.renderWithin r depth)
    (Renderer.dispatch r.registry d.scope d.path d.snippet) d.before = (d.result, d.after)
  job : ∃ job, Fit job ∧ d.scope = r.scopeOf job ∧ d.path = job.path.normal
  before : R s d.before
  after : R d.after t

namespace Dispatch.Between
variable {r : Renderer} {R : Session → Session → Prop} {Fit : Job → Prop} {s s' t t' : Session}
  {d : Dispatch}

theorem weaken (h : Ledger r R) (hd : Between r R Fit s d t) (hs : R s' s) (ht : R t t') :
    Between r R Fit s' d t' :=
  ⟨hd.followed, hd.job, h.trans hs hd.before, h.trans hd.after ht⟩

end Dispatch.Between

namespace Renderer
variable {r : Renderer} {R : Session → Session → Prop} {Fit : Job → Prop}

/-- Whether all dispatches stand between two sessions. -/
def AllBetween (r : Renderer) (R : Session → Session → Prop) (Fit : Job → Prop) (s : Session)
    (ds : List Dispatch) (t : Session) : Prop := R s t ∧ ∀ d ∈ ds, d.Between r R Fit s t

theorem listing_allBetween (h : Ledger r R) (Fit : Job → Prop) :
    Listing r (AllBetween r R Fit) where
  append {s t u ds more} hst htu := by
    refine ⟨h.trans hst.1 htu.1, fun d hd => ?_⟩
    rcases List.mem_append.1 hd with hd | hd
    · exact (hst.2 d hd).weaken h (h.refl s) htu.1
    · exact (htu.2 d hd).weaken h hst.1 (h.refl u)
  quiet hsame := ⟨h.quiet hsame, List.forall_mem_nil _⟩
  place s source hnone := ⟨h.place s source hnone, List.forall_mem_nil _⟩
  add s f := ⟨h.add s f, List.forall_mem_nil _⟩

/-- The script of a snippet does what its command does. -/
theorem meets_dispatch_command {c : Contract} {registry : Registry} {scope : Scope} {item : Snippet}
    (h : ∀ command, registry.find? item.name = some command →
      (command.invoke scope item.arguments).Meets c (fun _ => True) fun _ => True)
    (path : Path) : (dispatch registry scope path item).Meets c (fun _ => True) fun _ => True := by
  unfold dispatch
  split
  · exact Script.meets_pure trivial
  · rename_i command hfind
    exact Script.Meets.bind (Script.Meets.mapError (h command hfind)) fun _ _ => trivial

/-- What is dispatched for a snippet stands between the beginning and the end of its script. -/
theorem snippets_allBetween (h : Ledger r R) (hr : r.Fits Fit) :
    Snippets r (AllBetween r R Fit) Fit := by
  intro depth job item s hjob hin script out
  have hscript : script.Meets (.listed r (AllBetween r R Fit) Fit) (fun _ => True)
      fun _ => True := by
    refine (meets_dispatch_command (c := .fit r Fit) (fun command hfind => ?_) _).transfer
      (fun a ha => ?_) fun _ _ => id
    · exact hr job hjob command (Registry.mem_of_find? hfind).1 item.arguments
    cases a with
    | mention m => exact fun s => ⟨h.mention s m, List.forall_mem_nil _⟩
    | _ => exact ha
  have hbetween := (listing_allBetween h Fit).script hin hscript s
  refine ⟨hbetween.1, fun d hd => ?_⟩
  rcases List.mem_cons.1 hd with rfl | hd
  · exact ⟨⟨depth, rfl⟩, ⟨job, hjob, rfl, rfl⟩, h.refl s, h.refl out.2⟩
  · exact hbetween.2 d hd

/-- Every dispatch of a document stands between its beginning and its end. -/
theorem between_callDispatches (h : Ledger r R) (hr : r.Fits Fit) {c : Call} (hc : Fit c.job)
    (s : Session) : ∀ d ∈ r.callDispatches c s, d.Between r R Fit s (r.call c s).2 :=
  ((listing_allBetween h Fit).call (snippets_allBetween h hr) hc s).2

end Renderer
end AgentDocs
