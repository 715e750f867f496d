import AgentDocs.Proofs.Command.Keeping
import AgentDocs.Proofs.Render.Dispatches

/-! # What a document has kept so far

Entries are kept for the innermost document. A document that is rendered in between, as an import
or by a command, has entries of its own and leaves those of the document around it as they were. -/
namespace AgentDocs
open Effect Markup Store

theorem Store.isFile_store (p : Path) (s : Store) : (isFile p s).2 = s := by cases s <;> rfl

theorem Store.SameContent.isFile {a b : Store} (h : SameContent a b) (p : Path) :
    (isFile p a).1 = (isFile p b).1 := answer_congr h (.exists? p (some .file))

namespace Session

theorem entriesOf_of_documents {s t : Session} (h : s.documents = t.documents) (name : String) :
    s.entriesOf name = t.entriesOf name := by
  unfold entriesOf
  rw [h]

theorem current_keep (name : String) (e : Entry) (s : Session) :
    (s.keep name e).documents.current = s.documents.current ++ [(name, e)] := by
  unfold keep
  cases s.documents <;> rfl

theorem entriesOf_keep (name : String) (e : Entry) (s : Session) :
    (s.keep name e).entriesOf name = s.entriesOf name ++ [e] := by
  simp [entriesOf, current_keep]

theorem entriesOf_keep_of_ne {name other : String} (h : other ≠ name) (e : Entry) (s : Session) :
    (s.keep other e).entriesOf name = s.entriesOf name := by
  simp [entriesOf, current_keep, h]

/-- The files that the innermost document has included once, in the order in which it did. -/
def included (s : Session) : List Path := (s.entriesOf "include-once").map fun e => ⟨e.key⟩

/-- Notes that a file is included once. -/
def noteIncluded (p : Path) (s : Session) : Session := s.keep "include-once" ⟨p.text, ""⟩

theorem included_noteIncluded (p : Path) (s : Session) :
    (s.noteIncluded p).included = s.included ++ [p] := by
  simp [included, noteIncluded, entriesOf_keep]

theorem included_of_documents {s t : Session} (h : s.documents = t.documents) :
    s.included = t.included := by
  unfold included
  rw [entriesOf_of_documents h]

end Session

namespace Renderer
open Session CommandScript
variable {r : Renderer} {inner : Job → Rendering String} {nested : Job → Session → List Dispatch}

/-! ## Documents in between -/

theorem documents_importTarget (depth : Nat) (template : TemplateScope) (source : Path)
    (s : Session) :
    (importTarget r (renderWithin r depth) template source s).2.documents = s.documents := by
  obtain ⟨store, ⟨_, hp⟩ | ⟨_, _, hp⟩ | ⟨_, hp⟩⟩ := placeImport_cases r source s
  · rw [importTarget_of_error hp]
  · rw [importTarget_of_ok hp]
    rfl
  · rw [importTarget_of_ok hp, if_pos rfl]
    have hrender := @documents_renderWithin r depth (r.importJob template source) rfl
      { s with
        store := store
        targets := PathMap.insert source (r.freeFor source s) s.targets }
    cases hout : renderWithin r depth (r.importJob template source) { s with
        store := store
        targets := PathMap.insert source (r.freeFor source s) s.targets } with
    | mk result t =>
      rw [hout] at hrender
      cases result <;> exact hrender.symm

/-- What a command does leaves the entries of another one alone, unless parts are rendered. -/
theorem entriesOf_follow {name own : String} (hne : own ≠ name) {depth : Nat} {ε α : Type}
    {script : Script ε α}
    (h : script.Meets (.keeping own (·.mode = .document)) (fun _ => True) fun _ => True)
    (s : Session) :
    (follow r (renderWithin r depth) script s).2.entriesOf name = s.entriesOf name := by
  induction script generalizing s with
  | done a => rfl
  | fail e => rfl
  | act a next ih =>
    refine (ih _ (h.2 _ trivial) _).trans ?_
    have hasks := h.1
    cases a with
    | keep other e => exact entriesOf_keep_of_ne (hasks.symm ▸ hne) e s
    | render job => exact (entriesOf_of_documents (documents_renderWithin depth hasks s) name).symm
    | importFile template source =>
      exact entriesOf_of_documents (documents_importTarget depth template source s) name
    | ask | kept | mention | note => rfl

/-! ## Files that are included -/

/-- A store that is asked whether a file is there stays as it is. -/
theorem follow_isFile (p : Path) (s : Session) :
    follow r inner (CommandScript.isFile p) s
      = ((isFile p s.store).1.mapError CommandError.ofStore, s) := by
  have hask : perform r inner (.ask (.exists? p (some .file))) s = ((isFile p s.store).1, s) :=
    Prod.ext rfl (congrArg (fun store => { s with store }) (Store.isFile_store p s.store))
  have hfollow : follow r inner (CommandScript.isFile p) s
      = (fun out : Except Store.Error Bool × Session =>
        follow r inner (Script.ofExcept (out.1.mapError CommandError.ofStore)) out.2)
          (perform r inner (.ask (.exists? p (some .file))) s) := rfl
  rw [hfollow, hask]
  exact follow_ofExcept _ s

theorem scriptDispatches_isFile (p : Path) (s : Session) :
    scriptDispatches r inner nested (CommandScript.isFile p) s = [] := scriptDispatches_ofExcept _ _

/-- Whether the file is there decides whether there is an answer. -/
theorem existingFile_cases (scope : Scope) (reference : String) (s : Session) :
    let p := scope.resolve reference
    let script := Command.existingFile scope reference
    scriptDispatches r inner nested script s = [] ∧
      ((isFile p s.store).1 = .ok true ∧ follow r inner script s = (.ok p, s) ∨
        (isFile p s.store).1 ≠ .ok true ∧ ∃ e, follow r inner script s = (.error e, s)) := by
  intro p script
  have hscript : script = (CommandScript.isFile p >>= fun found =>
      if found then pure p else Script.fail (.missingFile p)) := rfl
  have hfile : follow r inner (CommandScript.isFile p) s = _ := follow_isFile p s
  rw [hscript, follow_bind, scriptDispatches_bind, hfile, scriptDispatches_isFile]
  cases hthere : (isFile p s.store).1 with
  | error e =>
    rw [hthere] at hfile
    exact ⟨rfl, .inr ⟨nofun, _, bind_error hfile⟩⟩
  | ok found =>
    rw [hthere] at hfile
    cases found with
    | false => exact ⟨rfl, .inr ⟨nofun, _, bind_ok hfile⟩⟩
    | true => exact ⟨rfl, .inl ⟨rfl, bind_ok hfile⟩⟩

/-- How a file is included once, what comes of it, and what is dispatched meanwhile. -/
inductive Once (r : Renderer) (inner : Job → Rendering String)
    (nested : Job → Session → List Dispatch) (scope : Scope) (args : List String) (s : Session) :
    Except CommandError String × Session → List Dispatch → Prop
  | refused {e : CommandError} :
      (∀ reference, args = [reference] →
        (isFile (scope.resolve reference) s.store).1 ≠ .ok true) →
      Once r inner nested scope args s (.error e, s) []
  | again {p : Path} : args.map scope.resolve = [p] → (isFile p s.store).1 = .ok true →
      s.included.any p.same = true → Once r inner nested scope args s (.ok "", s) []
  | first {p : Path} : args.map scope.resolve = [p] → (isFile p s.store).1 = .ok true →
      s.included.any p.same = false →
      Once r inner nested scope args s
        ((inner (scope.part p) (s.noteIncluded p)).1.mapError .ofRender,
          (inner (scope.part p) (s.noteIncluded p)).2)
        (nested (scope.part p) (s.noteIncluded p))

/-- What comes after a rendering. -/
theorem follow_render (job : Job) (s : Session) :
    follow r inner (CommandScript.render job) s
      = ((inner job s).1.mapError .ofRender, (inner job s).2) := by
  have hfollow : follow r inner (CommandScript.render job) s
      = follow r inner (Script.ofExcept ((inner job s).1.mapError .ofRender)) (inner job s).2 := rfl
  rw [hfollow, follow_ofExcept]

theorem scriptDispatches_render (job : Job) (s : Session) :
    scriptDispatches r inner nested (CommandScript.render job) s = nested job s := by
  have hscript : scriptDispatches r inner nested (CommandScript.render job) s
      = nested job s ++ scriptDispatches r inner nested
        (Script.ofExcept ((inner job s).1.mapError CommandError.ofRender)) (inner job s).2 := rfl
  rw [hscript, scriptDispatches_ofExcept, List.append_nil]

/-- Including a file that is there, where some have been included. -/
def includeNew (scope : Scope) (p : Path) (seen : List Entry) : CommandScript String := do
  if seen.any fun e => p.same ⟨e.key⟩ then return ""
  CommandScript.keep "include-once" ⟨p.text, ""⟩
  CommandScript.render (scope.part p)

theorem once_includeNew (nested : Job → Session → List Dispatch) {scope : Scope}
    {args : List String} {p : Path} (hp : args.map scope.resolve = [p]) {s : Session}
    (hthere : (isFile p s.store).1 = .ok true) :
    let script := includeNew scope p (s.entriesOf "include-once")
    Once r inner nested scope args s (follow r inner script s)
      (scriptDispatches r inner nested script s) := by
  intro script
  have hany : (s.entriesOf "include-once").any (fun e => p.same ⟨e.key⟩)
      = s.included.any p.same := by
    rw [included, List.any_map]
    rfl
  cases hseen : s.included.any p.same with
  | true =>
    have hscript : script = pure "" := if_pos (hany.trans hseen)
    rw [hscript]
    exact .again hp hthere hseen
  | false =>
    have hscript : script = (do
        CommandScript.keep "include-once" ⟨p.text, ""⟩
        CommandScript.render (scope.part p)) :=
      if_neg (Bool.eq_false_iff.1 (hany.trans hseen))
    have hdone : Once r inner nested scope args s _ _ := .first hp hthere hseen
    rw [← follow_render, ← @scriptDispatches_render r inner nested] at hdone
    rw [hscript]
    exact hdone

theorem once_invoke (nested : Job → Session → List Dispatch) (scope : Scope) (args : List String)
    (s : Session) :
    Once r inner nested scope args s (follow r inner (Command.includeOnce.invoke scope args) s)
      (scriptDispatches r inner nested (Command.includeOnce.invoke scope args) s) := by
  match args with
  | [] => exact .refused nofun
  | _ :: _ :: _ => exact .refused nofun
  | [reference] =>
    have hinvoke : Command.includeOnce.invoke scope [reference]
        = (Command.existingFile scope reference >>= fun p =>
          CommandScript.kept "include-once" >>= includeNew scope p) := rfl
    rw [hinvoke, follow_bind, scriptDispatches_bind]
    obtain ⟨hnested, ⟨hthere, hfollow⟩ | ⟨hthere, e, hfollow⟩⟩ :=
      @existingFile_cases r inner nested scope reference s
    · rw [bind_ok hfollow, hnested, hfollow]
      exact once_includeNew nested rfl hthere
    · rw [bind_error hfollow, hnested, hfollow]
      refine .refused fun other hother => ?_
      cases hother
      exact hthere

end Renderer
end AgentDocs
