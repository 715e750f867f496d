import AgentDocs.Proofs.Render.Mentions

/-! # The list of docs in a document

Commands have files rendered for their own template only. So wherever in a document the list of docs
stands, in its own text or in that of a file that it includes or imports, it is the list that the
document was rendered with. -/
namespace AgentDocs
open Effect Markup Store Session Template

/-- Files are rendered for one template. -/
def Contract.own (template : TemplateScope) : Contract where
  asks
    | .render job => job.template = template
    | .importFile template' _ => template' = template
    | _ => True
  answers _ _ := True

/-- Whether a command has files rendered for its own template only. -/
def Command.Own (c : Command) : Prop :=
  ∀ scope args, (c.invoke scope args).Meets (.own scope.template) (fun _ => True) fun _ => True

/-- Whether docs are listed by the command for it, and every command keeps to its template. -/
structure Registry.Lists (registry : Registry) : Prop where
  docs : registry.find? "docs-list" = some Command.docsList
  own : ∀ c ∈ registry, c.Own

namespace Command

theorem Silent.own {c : Command} (h : c.Silent) : c.Own := by
  refine fun scope args => (h scope args).transfer (fun a ha => ?_) fun _ _ _ => trivial
  cases a with
  | render | importFile => exact ha
  | ask | keep | kept | mention | note => trivial

theorem own_reference (name : String) (kind : ReferenceKind) (what : String) :
    (reference name kind what).Own := by
  intro scope args
  obtain ⟨e, h, _⟩ | ⟨mentioned, _, _, h⟩ := invoke_reference name kind what scope args <;> rw [h]
  · trivial
  · exact ⟨trivial, fun _ _ => trivial⟩

end Command

theorem Registry.lists_builtin (classes : ClassIndex) : (Registry.builtin classes).Lists where
  docs := rfl
  own c hc := by
    rcases Command.silent_or_mem_of_mem_builtin hc with hsilent | hmem
    · exact hsilent.own
    · simp only [List.mem_cons, List.not_mem_nil, or_false] at hmem
      rcases hmem with rfl | rfl <;> exact Command.own_reference _ _ _

namespace Renderer
variable {r : Renderer}

/-- All jobs of a document are for its template. -/
theorem fits_own (h : ∀ c ∈ r.registry, c.Own) (template : TemplateScope) :
    r.Fits fun job => job.template = template := by
  intro job hjob c hc args
  have hscope : (r.scopeOf job).template = template := hjob
  refine (hscope ▸ h c hc (r.scopeOf job) args).transfer (fun a ha => ?_) fun _ _ _ => trivial
  cases a with
  | render | importFile => exact ha
  | ask | keep | kept | mention | note => trivial

/-- The lines of a list of docs. -/
def docLines (docs : List ListedDoc) : List String :=
  (docs.zipIdx 1).map fun (doc, i) => Command.docLine doc i

/-- What a snippet for a list of docs gives. It takes no arguments. -/
def listed (docs : List ListedDoc) (path : Path) (item : Snippet) :
    Except RenderError (Option (List Char)) :=
  if item.arguments = [] then .ok (some (Text.joined "\n" (docLines docs)).toList)
  else .error (.ofCommand path item.name (.arity "docs-list" 0 0 item.arguments.length))

/-- The lines are numbered from one, one for each of the docs. -/
theorem getElem?_docLines (docs : List ListedDoc) (i : Nat) :
    (docLines docs)[i]? = docs[i]?.map (Command.docLine · (i + 1)) := by
  simp [docLines, List.getElem?_zipIdx, Nat.add_comm, Function.comp_def]

/-- A snippet for the list of docs gives the list of the template for which it is dispatched. -/
theorem follow_dispatch_docsList {registry : Registry} {scope : Scope} {path : Path}
    {item : Snippet} {inner : Job → Rendering String} {docs : List ListedDoc}
    (hfind : registry.find? item.name = some Command.docsList)
    (hdocs : scope.template.docs = some docs) (s : Session) :
    follow r inner (dispatch registry scope path item) s = (listed docs path item, s) := by
  obtain ⟨name, arguments, span⟩ := item
  unfold dispatch
  rw [hfind]
  cases arguments with
  | nil =>
    have hinvoke : Command.docsList.invoke scope [] = .done (Text.joined "\n" (docLines docs)) := by
      simp only [Command.docsList, hdocs]
      rfl
    dsimp only
    rw [hinvoke]
    rfl
  | cons argument arguments => rfl

/-- A list that is given is that of the template. -/
theorem exists_of_dispatch_docsList {registry : Registry} {scope : Scope} {path : Path}
    {item : Snippet} {inner : Job → Rendering String} {text : List Char} {s t : Session}
    (hfind : registry.find? item.name = some Command.docsList)
    (h : follow r inner (dispatch registry scope path item) s = (.ok (some text), t)) :
    ∃ docs, scope.template.docs = some docs ∧ text = (Text.joined "\n" (docLines docs)).toList := by
  cases hdocs : scope.template.docs with
  | some docs =>
    rw [follow_dispatch_docsList hfind hdocs, listed] at h
    have hresult := congrArg (·.1) h
    dsimp only at hresult
    split at hresult <;> cases hresult
    exact ⟨docs, rfl, rfl⟩
  | none =>
    obtain ⟨name, arguments, span⟩ := item
    unfold dispatch at h
    rw [hfind] at h
    cases arguments with
    | nil =>
      have hinvoke : Command.docsList.invoke scope []
          = .fail (.invalid "docs-list" "can be used only in the main documentation file") := by
        simp only [Command.docsList, hdocs]
        rfl
      dsimp only at h
      rw [hinvoke] at h
      cases h
    | cons argument arguments => cases h

/-- Every snippet in a document is dispatched for its template, at any depth. -/
theorem followed_of_mem_callDispatches (h : ∀ c ∈ r.registry, c.Own) {c : Call} {s : Session}
    {d : Dispatch} (hd : d ∈ r.callDispatches c s) :
    d.scope.template = c.template ∧ ∃ depth, follow r (renderWithin r depth)
      (dispatch r.registry d.scope d.path d.snippet) d.before = (d.result, d.after) := by
  have hledger : Ledger r fun _ _ => True :=
    ⟨fun _ _ => trivial, fun _ => trivial, fun _ _ _ => trivial, fun _ _ => trivial,
      fun _ _ => trivial⟩
  obtain ⟨hfollowed, ⟨job, hjob, hscope, _⟩, _, _⟩ :=
    between_callDispatches hledger (fits_own h c.template) (c := c) rfl s d hd
  exact ⟨by rw [hscope, scopeOf, hjob], hfollowed⟩

/-- Every list of docs in a document is that of its template, at any depth. -/
theorem docsList_of_mem_callDispatches (h : r.registry.Lists) {c : Call} {docs : List ListedDoc}
    (hdocs : c.template.docs = some docs) {s : Session} {d : Dispatch}
    (hd : d ∈ r.callDispatches c s) (hname : d.snippet.name = "docs-list") :
    d.result = listed docs d.path d.snippet := by
  obtain ⟨htemplate, depth, hfollow⟩ := followed_of_mem_callDispatches h.own hd
  rw [follow_dispatch_docsList (hname ▸ h.docs) (htemplate ▸ hdocs)] at hfollow
  exact (congrArg (·.1) hfollow).symm

end Renderer
end AgentDocs
