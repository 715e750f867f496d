import AgentDocs.Proofs.Markup.Splice
import AgentDocs.Proofs.Render.Dispatches

/-! # The variables of a text and its snippets

Before a snippet is dispatched, every variable of the text has a value or is the name of a command.
The snippets are then those of the text with the values in it, and they are dispatched from the last
one to the first, up to the first that fails. -/
namespace AgentDocs

namespace Markup

/-- A change of the effects passes through a replacement. -/
theorem splice_map {m n : Type → Type} [Monad m] [Monad n] (φ : ∀ {β : Type}, m β → n β)
    (hpure : ∀ {β : Type} (b : β), φ (pure b : m β) = pure b)
    (hbind : ∀ {β γ : Type} (x : m β) (f : β → m γ), φ (x >>= f) = φ x >>= fun b => φ (f b))
    {α : Type} (span : α → Span) (replace : α → m (Option (List Char))) (items : List α)
    (text : List Char) :
    φ (splice span replace items text) = splice span (fun item => φ (replace item)) items text := by
  have hback : ∀ (items : List α) (text done : List Char),
      φ (spliceBack span replace items text done)
        = spliceBack span (fun item => φ (replace item)) items text done := by
    intro items
    induction items with
    | nil => exact fun _ _ => hpure _
    | cons item items ih =>
      intro text done
      rw [spliceBack, spliceBack, hbind]
      exact bind_congr fun new => ih _ _
  exact hback _ _ _

end Markup

namespace Registry

theorem has_eq_false_iff {name : String} {registry : Registry} :
    registry.has name = false ↔ name ∉ registry.names := by
  induction registry with
  | nil => simp [has, find?, names]
  | cons c registry ih =>
    rw [has, find?]
    split
    · rename_i h
      simp [names, h]
    · rename_i h
      rw [← has, ih]
      simp [names, Ne.symm h]

end Registry

namespace Renderer
open Effect Markup

/-! ## Variables -/

/-- Whether nothing can stand for a variable. -/
def Unresolved (registry : Registry) (parameters : Parameters) (v : Variable) : Prop :=
  parameters.get? v.name = none ∧ v.name ∉ registry.names

/-- What stands for a variable instead of itself. -/
def given (parameters : Parameters) (v : Variable) : Option (List Char) :=
  (parameters.get? v.name).map String.toList

/-- Whether a text has come from another by putting the values of parameters in the place of all
variables that are named like one, and by nothing else. -/
def Fills (parameters : Parameters) (text filled : List Char) : Prop :=
  ∃ c : Cut Variable, c.items = variablesIn text ∧ c.text = text ∧ c.Fits Variable.span ∧
    filled = c.filled (c.items.map (given parameters))

variable {registry : Registry} {parameters : Parameters} {path : Path} {v : Variable}

theorem valueOf_of_unresolved (h : Unresolved registry parameters v) :
    valueOf registry parameters path v = .error (.unresolvedVariable path v.name) := by
  rw [valueOf, h.1]
  simp [Registry.has_eq_false_iff.2 h.2]

theorem valueOf_of_resolved (h : ¬Unresolved registry parameters v) :
    valueOf registry parameters path v = .ok (given parameters v) := by
  unfold valueOf given
  cases hget : parameters.get? v.name with
  | some value => rfl
  | none =>
    have hhas : registry.has v.name = true := by
      rw [← Bool.not_eq_false, Registry.has_eq_false_iff]
      exact fun hname => h ⟨hget, hname⟩
    simp [hhas]

/-- A variable that has an answer has one that can stand for it. -/
theorem given_of_answers {vs : List Variable} {news : List (Option (List Char))} {s t : Unit}
    (h : Effect.Answers (fun v => (ExceptT.mk (pure (valueOf registry parameters path v)) :
      Effect Unit RenderError _)) vs s news t) :
    news = vs.map (given parameters) ∧ ∀ v ∈ vs, ¬Unresolved registry parameters v := by
  induction h with
  | nil => exact ⟨rfl, List.forall_mem_nil _⟩
  | @cons v vs new news s t u hnew _ ih =>
    have hvalue : valueOf registry parameters path v = .ok new := congrArg (·.1) hnew
    have hresolved : ¬Unresolved registry parameters v := by
      intro hv
      rw [valueOf_of_unresolved hv] at hvalue
      cases hvalue
    rw [valueOf_of_resolved hresolved] at hvalue
    cases hvalue
    exact ⟨by rw [ih.1]; rfl, List.forall_mem_cons.2 ⟨hresolved, ih.2⟩⟩

/-- Variables are looked at from the last one to the first, up to one for which nothing can
stand. -/
theorem fillVariables_cases (registry : Registry) (parameters : Parameters) (path : Path)
    (text : List Char) :
    (∃ filled, fillVariables registry parameters path text = .ok filled ∧
      Fills parameters text filled ∧ ∀ v ∈ variablesIn text, ¬Unresolved registry parameters v) ∨
    ∃ earlier v later, fillVariables registry parameters path text
        = .error (.unresolvedVariable path v.name) ∧
      variablesIn text = earlier ++ v :: later ∧ Unresolved registry parameters v ∧
      ∀ w ∈ later, ¬Unresolved registry parameters w := by
  obtain ⟨_, c, hitems, htext, hfits, hresult⟩ := (splices_placeholders text).1
  let lift {β : Type} (x : Except RenderError β) : Effect Unit RenderError β := ExceptT.mk (pure x)
  have hlift : lift (fillVariables registry parameters path text)
      = splice Variable.span (fun v => lift (valueOf registry parameters path v))
        (variablesIn text) text :=
    splice_map lift (fun _ => rfl) (fun x f => by cases x <;> rfl) _ _ _ _
  rcases hresult Unit RenderError (fun v => lift (valueOf registry parameters path v)) () with
    ⟨news, _, hnews, hspliced⟩ |
    ⟨earlier, v, later, news, _, e, _, hsplit, hlater, hfailed, hspliced⟩
  · obtain ⟨rfl, hresolved⟩ := given_of_answers hnews
    rw [← hlift] at hspliced
    refine .inl ⟨_, congrArg (·.1) hspliced, ⟨c, hitems, htext, hfits, ?_⟩,
      fun v hv => hresolved v (List.mem_reverse.2 hv)⟩
    rw [List.map_reverse, List.reverse_reverse, hitems]
  · have hvalue : valueOf registry parameters path v = .error e := congrArg (·.1) hfailed
    have hv : Unresolved registry parameters v := by
      by_contra hv
      rw [valueOf_of_resolved hv] at hvalue
      cases hvalue
    rw [valueOf_of_unresolved hv] at hvalue
    cases hvalue
    rw [← hlift] at hspliced
    exact .inr ⟨earlier, v, later, congrArg (·.1) hspliced, hsplit, hv,
      fun w hw => (given_of_answers hlater).2 w (List.mem_reverse.2 hw)⟩

/-! ## Snippets -/

/-- What comes of the snippets of a text, which are dispatched from the last one to the first: all
answer, and what each of them gives stands in its place, or one fails and none before it is
dispatched. -/
inductive Dispatched (call : Snippet → Rendering (Option (List Char))) (text : List Char)
    (s : Session) : Except RenderError (List Char) × Session → Prop
  | all {c : Cut Snippet} {news : List (Option (List Char))} {t : Session} :
    c.items = snippetsIn text → c.text = text → c.Fits Snippet.span →
    Answers call (snippetsIn text).reverse s news t →
    Dispatched call text s (.ok (c.filled news.reverse), t)
  | failed {earlier later : List Snippet} {item : Snippet} {news : List (Option (List Char))}
    {e : RenderError} {t u : Session} :
    snippetsIn text = earlier ++ item :: later → Answers call later.reverse s news u →
    call item u = (.error e, t) → Dispatched call text s (.error e, t)

variable {r : Renderer} {inner : Job → Rendering String} {scope : Scope} {s : Session}

theorem follow_splice {α : Type} (span : α → Span)
    (replace : α → Script RenderError (Option (List Char))) (items : List α) (text : List Char) :
    follow r inner (splice span replace items text)
      = splice span (fun item => follow r inner (replace item)) items text :=
  splice_map (follow r inner) (fun _ => rfl) follow_bind _ _ _ _

theorem dispatched_snippets (text : List Char) :
    Dispatched (fun item => follow r inner (dispatch r.registry scope path item)) text s
      (follow r inner (splice Snippet.span (dispatch r.registry scope path) (snippetsIn text) text)
        s) := by
  obtain ⟨_, c, hitems, htext, hfits, hresult⟩ := (splices_placeholders text).2
  rw [follow_splice]
  obtain ⟨news, t, hnews, hspliced⟩ | ⟨earlier, item, later, news, u, e, t, hsplit, hlater, hfailed,
    hspliced⟩ := hresult Session RenderError
      (fun item => follow r inner (dispatch r.registry scope path item)) s
  · rw [hspliced]
    exact .all hitems htext hfits hnews
  · rw [hspliced]
    exact .failed hsplit hlater hfailed

/-- A snippet that fails does so by its command. -/
theorem exists_of_dispatch_error {item : Snippet} {e : RenderError} {t : Session}
    (h : follow r inner (dispatch registry scope path item) s = (.error e, t)) :
    ∃ e', e = .ofCommand path item.name e' := by
  cases hfind : registry.find? item.name with
  | none =>
    rw [dispatch, hfind] at h
    cases h
  | some command =>
    rw [follow_dispatch_of_find? hfind] at h
    cases hinvoke : (follow r inner (command.invoke scope item.arguments) s).1 with
    | ok text =>
      rw [hinvoke] at h
      cases congrArg (·.1) h
    | error e' =>
      rw [hinvoke] at h
      exact ⟨e', (Except.error.inj (congrArg (·.1) h)).symm⟩

theorem not_unresolved_of_dispatched {text : List Char}
    {out : Except RenderError (List Char) × Session}
    (h : Dispatched (fun item => follow r inner (dispatch r.registry scope path item)) text s out)
    (p : Path) (name : String) : out.1 ≠ .error (.unresolvedVariable p name) := by
  cases h with
  | all => nofun
  | failed _ _ hfailed =>
    obtain ⟨e', rfl⟩ := exists_of_dispatch_error hfailed
    nofun

theorem expand_of_fill_error {text : List Char} {e : RenderError}
    (h : fillVariables registry scope.template.parameters path text = .error e) :
    expand registry scope path text = .fail e := by
  rw [expand, h]
  rfl

/-- Once the values are in a text, its snippets are dispatched if they are to be. -/
theorem follow_expand_of_fill_ok {text filled : List Char}
    (h : fillVariables r.registry scope.template.parameters path text = .ok filled) :
    let out := follow r inner (expand r.registry scope path text) s
    if scope.template.dispatches then
      Dispatched (fun item => follow r inner (dispatch r.registry scope path item)) filled s out
    else out = (.ok filled, s) := by
  have hexpand : expand r.registry scope path text = if scope.template.dispatches then
      splice Snippet.span (dispatch r.registry scope path) (snippetsIn filled) filled
      else pure filled := by
    rw [expand, h]
    rfl
  rw [hexpand]
  dsimp only
  cases scope.template.dispatches with
  | true => exact dispatched_snippets filled
  | false => rfl

theorem not_unresolved_of_fill_ok {text filled : List Char}
    (h : fillVariables r.registry scope.template.parameters path text = .ok filled) (p : Path)
    (name : String) :
    (follow r inner (expand r.registry scope path text) s).1
      ≠ .error (.unresolvedVariable p name) := by
  have hout := @follow_expand_of_fill_ok path r inner scope s text filled h
  dsimp only at hout
  split at hout
  · exact not_unresolved_of_dispatched hout p name
  · rw [hout]
    exact nofun

/-- Expanding a text fails for a variable exactly if nothing can stand for one of them; then it
names the last one of these, and no snippet is dispatched. Otherwise the snippets of the text with
the values in it are dispatched, or this text is the result where none are to be. -/
theorem expand_of_variables (r : Renderer) (inner : Job → Rendering String) (scope : Scope)
    (path : Path) (text : List Char) (s : Session) :
    let unresolved := Unresolved r.registry scope.template.parameters
    let script := expand r.registry scope path text
    let out := follow r inner script s
    ((∃ p name, out.1 = .error (.unresolvedVariable p name)) ↔
      ∃ v ∈ variablesIn text, unresolved v) ∧
    ((∃ v ∈ variablesIn text, unresolved v) → ∃ earlier v later,
      variablesIn text = earlier ++ v :: later ∧ unresolved v ∧ (∀ w ∈ later, ¬unresolved w) ∧
      script = .fail (.unresolvedVariable path v.name) ∧
      ∀ nested, textDispatches r inner nested scope path text s = []) ∧
    ((∀ v ∈ variablesIn text, ¬unresolved v) → ∃ filled,
      Fills scope.template.parameters text filled ∧
      if scope.template.dispatches then
        Dispatched (fun item => follow r inner (dispatch r.registry scope path item)) filled s out
      else out = (.ok filled, s)) := by
  intro unresolved script out
  obtain ⟨filled, hfill, hfills, hresolved⟩ | ⟨earlier, v, later, hfill, hsplit, hv, hlater⟩ :=
    fillVariables_cases r.registry scope.template.parameters path text
  · have hno : ¬∃ v ∈ variablesIn text, unresolved v := fun ⟨v, hmem, hv⟩ => hresolved v hmem hv
    refine ⟨⟨fun ⟨p, name, herror⟩ => ?_, fun h => absurd h hno⟩, fun h => absurd h hno,
      fun _ => ⟨filled, hfills, follow_expand_of_fill_ok hfill⟩⟩
    exact absurd herror (not_unresolved_of_fill_ok hfill p name)
  · have hscript : script = .fail (.unresolvedVariable path v.name) := expand_of_fill_error hfill
    have hout : out.1 = .error (.unresolvedVariable path v.name) :=
      congrArg (fun script => (follow r inner script s).1) hscript
    have hmem : v ∈ variablesIn text := by simp [hsplit]
    refine ⟨⟨fun _ => ⟨v, hmem, hv⟩, fun _ => ⟨path, v.name, hout⟩⟩,
      fun _ => ⟨earlier, v, later, hsplit, hv, hlater, hscript, fun nested => ?_⟩,
      fun h => absurd hv (h v hmem)⟩
    rw [textDispatches, hfill]

/-- A parameter wins over a command of its name, also inside of a quoted argument; a bare name of a
command stays. -/
example : fillVariables (.builtin .empty) [("docs-list", "L"), ("x", "1")] ⟨"/a.md"⟩
    ("\x7b\x7bdocs-list\x7d\x7d \x7b\x7bprint: \"\x7b\x7b x \x7d\x7d\"\x7d\x7d "
      ++ "\x7b\x7bprint\x7d\x7d").toList
    = .ok "L \x7b\x7bprint: \"1\"\x7d\x7d \x7b\x7bprint\x7d\x7d".toList := by
  decide +kernel

end Renderer
end AgentDocs
