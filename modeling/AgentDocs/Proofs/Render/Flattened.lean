import AgentDocs.Proofs.Render.Inclusion
import AgentDocs.Proofs.Render.Kept

/-! # The flattened text of a document

The snippets of a document stand in one order if each file that is included takes the place of the
snippet that includes it. The order depends on nothing but the store. It is found from the end on,
as of the snippets that include a file once the last one does. -/
namespace AgentDocs
open Effect Markup Store Session

/-- A snippet, and what its command sees. -/
structure Occurrence where
  scope : Scope
  snippet : Snippet

/-- What was flattened of a document, from its end on: the snippets in the order of the text, and
the files that are included once in it. -/
structure Flattened where
  occurrences : List Occurrence
  included : List Path

namespace Flattened

def empty : Flattened := ⟨[], []⟩

/-- Puts a snippet in front. -/
def add (o : Occurrence) (done : Flattened) : Flattened :=
  { done with occurrences := o :: done.occurrences }

/-- Notes that a file is included once. -/
def noteIncluded (p : Path) (done : Flattened) : Flattened :=
  { done with included := done.included ++ [p] }

/-- The file that takes the place of a snippet, if one does, and what is noted then. -/
def part? (done : Flattened) (o : Occurrence) : Option (Path × Flattened) :=
  match o.snippet.arguments.map o.scope.resolve with
  | [p] =>
    if o.snippet.name = "include" then some (p, done)
    else if o.snippet.name = "include-once" ∧ done.included.any p.same = false then
      some (p, done.noteIncluded p)
    else none
  | _ => none

end Flattened

namespace Renderer

/-- The snippets that are dispatched in the text of a file. -/
def snippetsOf (r : Renderer) (store : Store) (job : Job) : Option (List Snippet) := do
  let text ← match job.content with
    | some content => some content.toList
    | none => (readText job.path.normal store).1.toOption.map fun content =>
      stripHeaders content.toList
  let filled ← (fillVariables r.registry job.template.parameters job.path.normal text).toOption
  return if job.template.dispatches then snippetsIn filled else []

/-- Puts a snippet in front, or the file that takes its place; `inner` flattens other files. -/
def flattenSnippet (inner : Job → Flattened → Option Flattened) (o : Occurrence)
    (done : Flattened) : Option Flattened :=
  match done.part? o with
  | some (p, done) => inner (o.scope.part p) done
  | none => some (done.add o)

/-- Puts the text of a file in front, with at most `depth` files within one another. -/
def flattenWithin (r : Renderer) (store : Store) : Nat → Job → Flattened → Option Flattened
  | 0, _, _ => none
  | depth + 1, job, done => do
    (← r.snippetsOf store job).foldrM
      (fun item => flattenSnippet (flattenWithin r store depth) ⟨r.scopeOf job, item⟩) done

end Renderer

/-! ## What snippets have to be kept -/

/-- The entry for the class that a snippet names. -/
def entryOfClass? (classes : ClassIndex) (o : Occurrence) : Option Entry :=
  if o.snippet.name = "@context" then
    let name := o.snippet.arguments.getD 0 ""
    match Command.describeClass classes name o.snippet.arguments[1]? with
    | .done text => some ⟨name, text⟩
    | _ => none
  else none

/-- The entry for the package that a snippet names, if a file documents it. -/
def entryOfPackage? (store : Store) (o : Occurrence) : Option Entry :=
  if o.snippet.name = "@package" then
    let package := Text.trimSlashes (o.snippet.arguments.getD 0 "")
    let files := Command.packageFiles.map fun file => "vendor/" ++ package ++ "/" ++ file
    (files.find? fun file => (isFile (o.scope.root.child file) store).1.toOption == some true).map
      fun file => ⟨package,
        "- " ++ o.snippet.arguments.getD 1 "" ++ " - " ++ o.scope.linkBelowRoot file⟩
  else none

/-- A session that reads a store, and remembers what is in its files. -/
structure Session.Reads (store : Store) (s : Session) : Prop where
  same : SameContent store s.store
  faithful : s.Faithful

namespace Session.Reads
variable {store : Store} {s t : Session}

theorem steady (h : Reads store s) (hsteady : Steady s t) : Reads store t :=
  ⟨Trans.trans h.same hsteady.store, hsteady.faithful h.faithful⟩

theorem of_eq (h : Reads store s) (hstore : s.store = t.store) (hbodies : s.bodies = t.bodies) :
    Reads store t :=
  ⟨hstore ▸ h.same, h.faithful.of_store hbodies (hstore ▸ Std.Refl.refl _)⟩

end Session.Reads

/-- A session in which a document has kept what has to be kept for what was flattened. -/
structure Gathered (classes : ClassIndex) (store : Store) (s : Session) (done : Flattened) : Prop
    extends Reads store s where
  context : s.entriesOf "@context" = (done.occurrences.filterMap (entryOfClass? classes)).reverse
  package : s.entriesOf "@package" = (done.occurrences.filterMap (entryOfPackage? store)).reverse
  included : s.included = done.included

theorem reverse_filterMap_cons {α β : Type} (f : α → Option β) (a : α) (as : List α) :
    ((a :: as).filterMap f).reverse = (as.filterMap f).reverse ++ (f a).toList := by
  rw [List.filterMap_cons]
  cases f a with
  | none => exact (List.append_nil _).symm
  | some b => exact List.reverse_cons

namespace Gathered
variable {classes : ClassIndex} {store : Store} {s t : Session} {done : Flattened}

/-- Nothing is kept. -/
theorem quiet (h : Gathered classes store s done) (hreads : Reads store t)
    (hdocuments : s.documents = t.documents) : Gathered classes store t done where
  toReads := hreads
  context := entriesOf_of_documents hdocuments _ ▸ h.context
  package := entriesOf_of_documents hdocuments _ ▸ h.package
  included := included_of_documents hdocuments ▸ h.included

/-- A snippet is put in front, and what has to be kept for it is. -/
theorem add (h : Gathered classes store s done) (hsteady : Steady s t) {o : Occurrence}
    (hcontext : t.entriesOf "@context" = s.entriesOf "@context" ++ (entryOfClass? classes o).toList)
    (hpackage : t.entriesOf "@package" = s.entriesOf "@package" ++ (entryOfPackage? store o).toList)
    (hincluded : t.included = s.included) : Gathered classes store t (done.add o) where
  toReads := h.toReads.steady hsteady
  context := by rw [hcontext, h.context, Flattened.add, reverse_filterMap_cons]
  package := by rw [hpackage, h.package, Flattened.add, reverse_filterMap_cons]
  included := hincluded.trans h.included

/-- A file is included once. -/
theorem noteIncluded (h : Gathered classes store s done) {p : Path} :
    Gathered classes store (s.noteIncluded p) (done.noteIncluded p) where
  toReads := h.toReads.steady (steady_keep s _ _)
  context := (entriesOf_keep_of_ne (by decide) _ s).trans h.context
  package := (entriesOf_keep_of_ne (by decide) _ s).trans h.package
  included := by rw [included_noteIncluded, h.included, Flattened.noteIncluded]

end Gathered

theorem Registry.find?_append {name : String} {a b : Registry} {c : Command}
    (h : a.find? name = some c) : Registry.find? name (a ++ b) = some c := by
  induction a with
  | nil => cases h
  | cons d ds ih =>
    rw [List.cons_append, Registry.find?]
    rw [Registry.find?] at h
    split at h
    · rename_i hd
      rw [if_pos hd, h]
    · rename_i hd
      rw [if_neg hd]
      exact ih h

namespace Session

/-- Keeps an entry, if there is one. -/
def keep? (name : String) (e? : Option Entry) (s : Session) : Session :=
  match e? with
  | some e => s.keep name e
  | none => s

theorem entriesOf_keep? (name : String) (e? : Option Entry) (s : Session) :
    (s.keep? name e?).entriesOf name = s.entriesOf name ++ e?.toList := by
  cases e? with
  | none => exact (List.append_nil _).symm
  | some e => exact entriesOf_keep name e s

end Session

namespace Renderer
variable {r : Renderer} {inner : Job → Rendering String} {classes : ClassIndex} {store : Store}
  {depth : Nat}

/-! ## What commands keep -/

/-- To describe a class nothing is asked for. -/
theorem exists_describeClass (classes : ClassIndex) (name : String) (visibilities : Option String) :
    ∃ result, Command.describeClass classes name visibilities = Script.ofExcept result := by
  dsimp only [Command.describeClass, CommandScript.ofClass]
  cases classes.signature name (.ofVisibility (Visibility.ofText (visibilities.getD ""))) with
  | error e => exact ⟨.error (.ofClass e), rfl⟩
  | ok signature => exact ⟨.ok _, rfl⟩

theorem follow_context {description : String} {o : Occurrence} (hname : o.snippet.name = "@context")
    {s t : Session} {text : String}
    (h : follow r inner ((Command.context classes description).invoke o.scope o.snippet.arguments) s
      = (.ok text, t)) : t = s.keep? "@context" (entryOfClass? classes o) := by
  unfold entryOfClass?
  rw [if_pos hname]
  dsimp only [Command.context] at h ⊢
  rw [follow_bind] at h
  obtain ⟨_, u, hargs, h⟩ := exists_of_bind_ok h
  rw [follow_ofExcept] at hargs
  obtain rfl : s = u := congrArg (·.2) hargs
  obtain ⟨result, hresult⟩ := exists_describeClass classes (o.snippet.arguments.getD 0 "")
    o.snippet.arguments[1]?
  rw [hresult] at h ⊢
  cases result with
  | error e => cases h
  | ok described => exact (congrArg (·.2) h).symm

theorem follow_firstFile {scope : Scope} {files : List String} {found : Option String}
    {s t : Session} (h : follow r inner (Command.firstFile scope files) s = (.ok found, t)) :
    t = s ∧ found = files.find? fun file =>
      (isFile (scope.root.child file) s.store).1.toOption == some true := by
  induction files with
  | nil =>
    cases h
    exact ⟨rfl, rfl⟩
  | cons file files ih =>
    rw [Command.firstFile, follow_bind] at h
    obtain ⟨there, u, hfile, h⟩ := exists_of_bind_ok h
    rw [follow_isFile] at hfile
    obtain ⟨hthere, rfl⟩ := Prod.mk.inj hfile
    have hthere := Except.of_mapError_ok hthere
    rw [List.find?_cons, hthere]
    cases there with
    | true =>
      cases h
      exact ⟨rfl, rfl⟩
    | false => exact ih h

theorem follow_package {description : String} {o : Occurrence}
    (hname : o.snippet.name = "@package") {s t : Session} {text : String}
    (h : follow r inner ((Command.package description).invoke o.scope o.snippet.arguments) s
      = (.ok text, t)) : t = s.keep? "@package" (entryOfPackage? s.store o) := by
  unfold entryOfPackage?
  rw [if_pos hname]
  dsimp only [Command.package] at h ⊢
  rw [follow_bind] at h
  obtain ⟨_, u, hargs, h⟩ := exists_of_bind_ok h
  rw [follow_ofExcept] at hargs
  obtain rfl : s = u := congrArg (·.2) hargs
  rw [follow_bind] at h
  obtain ⟨found, v, hfound, h⟩ := exists_of_bind_ok h
  obtain ⟨rfl, hfirst⟩ := follow_firstFile hfound
  rw [← hfirst]
  cases found with
  | none => exact (congrArg (·.2) h).symm
  | some file => exact (congrArg (·.2) h).symm

theorem entryOfPackage?_congr {a b : Store} (h : SameContent a b) (o : Occurrence) :
    entryOfPackage? a o = entryOfPackage? b o := by
  unfold entryOfPackage?
  simp only [h.isFile]

/-- A file is included if it is there. -/
theorem follow_include {scope : Scope} {args : List String} {s t : Session} {text : String}
    (h : follow r inner (Command.includeFile.invoke scope args) s = (.ok text, t)) :
    ∃ p, args.map scope.resolve = [p] ∧ inner (scope.part p) s = (.ok text, t) := by
  match args with
  | [] => cases h
  | _ :: _ :: _ => cases h
  | [reference] =>
    have hinvoke : Command.includeFile.invoke scope [reference]
        = (Command.existingFile scope reference >>= fun p =>
          CommandScript.render (scope.part p)) := rfl
    rw [hinvoke, follow_bind] at h
    obtain ⟨p, u, hfile, h⟩ := exists_of_bind_ok h
    obtain ⟨_, ⟨_, hfound⟩ | ⟨_, e, hfailed⟩⟩ :=
      @existingFile_cases r inner (fun _ _ => []) scope reference s
    · cases hfound.symm.trans hfile
      rw [follow_render] at h
      exact ⟨_, rfl, Prod.ext (Except.of_mapError_ok (congrArg (·.1) h)) (congrArg (·.2) h)⟩
    · cases hfailed.symm.trans hfile

theorem exists_of_dispatch_ok {registry : Registry} {scope : Scope} {path : Path} {item : Snippet}
    {c : Command} (hfind : registry.find? item.name = some c) {s t : Session}
    {new : Option (List Char)}
    (h : follow r inner (dispatch registry scope path item) s = (.ok new, t)) :
    ∃ text, follow r inner (c.invoke scope item.arguments) s = (.ok text, t) := by
  rw [follow_dispatch_of_find? hfind] at h
  cases hout : follow r inner (c.invoke scope item.arguments) s with
  | mk result u =>
    rw [hout] at h
    cases result with
    | error e => cases h
    | ok text => exact ⟨text, congrArg (Prod.mk _) (congrArg (·.2) h)⟩

/-! ## Flattening along a rendering -/

/-- The snippets of the text that is read for a file. -/
theorem snippetsOf_of_sourceOf {job : Job} {text filled : List Char} {s t : Session}
    (hs : Reads store s) (hsource : sourceOf job s = (.ok text, t))
    (hfill : fillVariables r.registry job.template.parameters job.path.normal text = .ok filled) :
    r.snippetsOf store job
      = some (if job.template.dispatches then snippetsIn filled else []) := by
  unfold snippetsOf
  cases hcontent : job.content with
  | some content =>
    rw [sourceOf, hcontent] at hsource
    cases hsource
    dsimp only [Option.bind_eq_bind, Option.bind_some]
    rw [hfill]
    rfl
  | none =>
    obtain ⟨content, hread, rfl⟩ := exists_of_sourceOf hcontent hs.same hs.faithful hsource
    rw [hread]
    dsimp only [Except.toOption, Option.map_some, Option.bind_eq_bind, Option.bind_some]
    rw [hfill]
    rfl

/-- Whether the parts that are rendered at most so deep are flattened with what they keep. -/
def FlattensInside (r : Renderer) (classes : ClassIndex) (store : Store) (depth : Nat) : Prop :=
  ∀ job s done text t, job.mode = .part → Gathered classes store s done →
    renderWithin r depth job s = (.ok text, t) →
    ∃ after, flattenWithin r store depth job done = some after ∧ Gathered classes store t after

/-- A file that is included once takes the place of its snippet where it was not included before. -/
theorem flattens_once (hin : FlattensInside r classes store depth) {scope : Scope} {item : Snippet}
    (honce : item.name = "include-once") {s t : Session} {done : Flattened}
    (h : Gathered classes store s done) {out : Except CommandError String × Session}
    {nested : Job → Session → List Dispatch} {inside : List Dispatch}
    (hout : Once r (renderWithin r depth) nested scope item.arguments s out inside) {text : String}
    (hok : out = (.ok text, t)) :
    ∃ after, flattenSnippet (flattenWithin r store depth) ⟨scope, item⟩ done = some after ∧
      Gathered classes store t after := by
  unfold flattenSnippet
  cases hout with
  | refused => cases hok
  | @again p hp _ hseen =>
    obtain rfl : s = t := congrArg (·.2) hok
    have hnone : done.part? ⟨scope, item⟩ = none := by
      simp [Flattened.part?, hp, honce, ← h.included, hseen]
    rw [hnone]
    refine ⟨_, rfl, h.add (Std.Refl.refl s) ?_ ?_ rfl⟩
    · simp [entryOfClass?, honce]
    · simp [entryOfPackage?, honce]
  | @first p hp _ hnew =>
    have hpart : done.part? ⟨scope, item⟩ = some (p, done.noteIncluded p) := by
      simp [Flattened.part?, hp, honce, ← h.included, hnew]
    rw [hpart]
    refine hin (scope.part p) (s.noteIncluded p) _ text t rfl h.noteIncluded ?_
    exact Prod.ext (Except.of_mapError_ok (congrArg (·.1) hok)) (congrArg (·.2) hok)

section
variable {others : Registry} (hr : r.registry = .builtin classes ++ others)
  (hothers : ∀ c ∈ others, c.KeepsApart)
include hr

theorem find?_of_builtin {name : String} {c : Command}
    (h : Registry.find? name (.builtin classes) = some c) : r.registry.find? name = some c :=
  hr ▸ Registry.find?_append h

include hothers

/-- All commands but two have no parts rendered. -/
theorem keepsApart_of_find? {name : String} {c : Command} (hfind : r.registry.find? name = some c)
    (hinclude : name ≠ "include") (honce : name ≠ "include-once") : c.KeepsApart := by
  obtain ⟨hmem, hname⟩ := Registry.mem_of_find? hfind
  rw [hr] at hmem
  rcases List.mem_append.1 hmem with hmem | hmem
  · refine Command.keeps_of_mem_builtin hmem fun hparts => ?_
    rcases List.mem_cons.1 hparts with rfl | hparts
    · exact absurd hname.symm hinclude
    · obtain rfl := List.mem_singleton.1 hparts
      exact absurd hname.symm honce
  · exact hothers c hmem

/-- A snippet for which no part is rendered keeps what has to be kept for it. -/
theorem gathered_add {scope : Scope} {path : Path} {item : Snippet} {s t : Session}
    {done : Flattened} {new : Option (List Char)} (h : Gathered classes store s done)
    (hinclude : item.name ≠ "include") (honce : item.name ≠ "include-once")
    (hfollow : follow r (renderWithin r depth) (dispatch r.registry scope path item) s
      = (.ok new, t)) : Gathered classes store t (done.add ⟨scope, item⟩) := by
  have hsteady : Steady s t := (moves_follow (moves_renderWithin depth) _).arrives s _ t hfollow
  have hscript : (dispatch r.registry scope path item).Meets
      (.keeping item.name (·.mode = .document)) (fun _ => True) fun _ => True := by
    refine meets_dispatch_command (fun c hfind => ?_) path
    have hname := (Registry.mem_of_find? hfind).2
    exact hname ▸ keepsApart_of_find? hr hothers hfind hinclude honce scope item.arguments
  have hother (name : String) (hne : item.name ≠ name) : t.entriesOf name = s.entriesOf name := by
    have hkept := @entriesOf_follow r name item.name hne depth _ _ _ hscript s
    rwa [hfollow] at hkept
  refine h.add hsteady ?_ ?_ (congrArg (List.map _) (hother _ honce))
  · by_cases hname : item.name = "@context"
    · have hfind : r.registry.find? item.name
          = some (Command.context classes Command.contextDescription) :=
        hname ▸ find?_of_builtin hr rfl
      obtain ⟨text, hinvoke⟩ := exists_of_dispatch_ok hfind hfollow
      rw [follow_context (o := ⟨scope, item⟩) hname hinvoke, entriesOf_keep?]
    · rw [hother _ hname, entryOfClass?, if_neg hname]
      exact (List.append_nil _).symm
  · by_cases hname : item.name = "@package"
    · have hfind : r.registry.find? item.name
          = some (Command.package Command.packageDescription) :=
        hname ▸ find?_of_builtin hr rfl
      obtain ⟨text, hinvoke⟩ := exists_of_dispatch_ok hfind hfollow
      rw [follow_package (o := ⟨scope, item⟩) hname hinvoke, entriesOf_keep?,
        entryOfPackage?_congr h.same]
    · rw [hother _ hname, entryOfPackage?, if_neg hname]
      exact (List.append_nil _).symm

/-- One snippet, with what is rendered for it. -/
theorem flattens_snippet (hin : FlattensInside r classes store depth) {scope : Scope} {path : Path}
    {item : Snippet} {s t : Session} {done : Flattened} {new : Option (List Char)}
    (h : Gathered classes store s done)
    (hfollow : follow r (renderWithin r depth) (dispatch r.registry scope path item) s
      = (.ok new, t)) :
    ∃ after, flattenSnippet (flattenWithin r store depth) ⟨scope, item⟩ done = some after ∧
      Gathered classes store t after := by
  by_cases hinclude : item.name = "include"
  · have hfind : r.registry.find? item.name = some Command.includeFile :=
      hinclude ▸ find?_of_builtin hr rfl
    obtain ⟨text, hinvoke⟩ := exists_of_dispatch_ok hfind hfollow
    obtain ⟨p, hp, hrender⟩ := follow_include hinvoke
    have hpart : done.part? ⟨scope, item⟩ = some (p, done) := by
      simp only [Flattened.part?, hp, hinclude, if_true]
    rw [flattenSnippet, hpart]
    exact hin (scope.part p) s done text t rfl h hrender
  by_cases honce : item.name = "include-once"
  · have hfind : r.registry.find? item.name = some Command.includeOnce :=
      honce ▸ find?_of_builtin hr rfl
    obtain ⟨text, hinvoke⟩ := exists_of_dispatch_ok hfind hfollow
    exact flattens_once hin honce h (once_invoke (fun _ _ => []) scope item.arguments s) hinvoke
  · have hnone : done.part? ⟨scope, item⟩ = none := by
      unfold Flattened.part?
      split
      · simp only [hinclude, honce, false_and, if_false]
      · rfl
    rw [flattenSnippet, hnone]
    exact ⟨_, rfl, gathered_add hr hothers h hinclude honce hfollow⟩

/-- The snippets of a text, which are given from the last one to the first. -/
theorem flattens_snippets (hin : FlattensInside r classes store depth) {scope : Scope} {path : Path}
    {items : List Snippet} {text rest result : List Char} {s t : Session} {done : Flattened}
    (h : Gathered classes store s done)
    (hfollow : follow r (renderWithin r depth)
      (spliceBack Snippet.span (dispatch r.registry scope path) items text rest) s
        = (.ok result, t)) :
    ∃ after, items.foldlM (fun done item =>
        flattenSnippet (flattenWithin r store depth) ⟨scope, item⟩ done) done = some after ∧
      Gathered classes store t after := by
  induction items generalizing text rest s done with
  | nil =>
    cases hfollow
    exact ⟨done, rfl, h⟩
  | cons item items ih =>
    rw [spliceBack, follow_bind] at hfollow
    obtain ⟨new, u, hfirst, hrest⟩ := exists_of_bind_ok hfollow
    obtain ⟨mid, hmid, hgathered⟩ := flattens_snippet hr hothers hin h hfirst
    obtain ⟨after, hafter, hend⟩ := ih hgathered hrest
    refine ⟨after, ?_, hend⟩
    rw [List.foldlM_cons, hmid]
    exact hafter

/-- A file whose text is expanded without a failure. -/
theorem flattens_text (hin : FlattensInside r classes store depth) {job : Job}
    {text result : List Char} {s t u v : Session} {done : Flattened}
    (hs : Reads store s) (hsource : sourceOf job s = (.ok text, t))
    (h : Gathered classes store u done)
    (hfollow : follow r (renderWithin r depth) (r.scriptOf job text) u = (.ok result, v)) :
    ∃ after, flattenWithin r store (depth + 1) job done = some after ∧
      Gathered classes store v after := by
  unfold scriptOf expand at hfollow
  rw [follow_bind] at hfollow
  obtain ⟨filled, u', hfill, hrest⟩ := exists_of_bind_ok hfollow
  rw [follow_ofExcept] at hfill
  obtain rfl : u = u' := congrArg (·.2) hfill
  have hsnippets : r.snippetsOf store job = _ :=
    snippetsOf_of_sourceOf hs hsource (congrArg (·.1) hfill)
  rw [flattenWithin, hsnippets]
  change follow r (renderWithin r depth) (if job.template.dispatches then _ else _) u = _ at hrest
  cases hdispatches : job.template.dispatches with
  | true =>
    rw [hdispatches, if_pos rfl] at hrest
    exact flattens_snippets hr hothers hin h hrest
  | false =>
    rw [hdispatches, if_neg Bool.false_ne_true] at hrest
    obtain rfl : u = v := congrArg (·.2) hrest
    exact ⟨done, rfl, h⟩

/-- Parts are flattened at any depth. -/
theorem flattensInside (depth : Nat) : FlattensInside r classes store depth := by
  induction depth with
  | zero =>
    intro job s done text t _ _ hrender
    obtain ⟨_, _, _, _, _, hdepth, _⟩ := exists_of_renderWithin_ok hrender
    cases hdepth
  | succ depth ih =>
    intro job s done content t hmode h hrender
    obtain ⟨least, text, u, body, v, hdepth, hsource, hbody, _, rfl⟩ :=
      exists_of_renderWithin_ok hrender
    cases hdepth
    have henter : Reads store (s.enter job.path.normal) := h.toReads.of_eq rfl rfl
    have hread : Reads store u := henter.steady ((moves_sourceOf job).arrives _ _ _ hsource)
    have hdocuments := documents_sourceOf job (s.enter job.path.normal)
    rw [hsource] at hdocuments
    rw [hmode] at hbody ⊢
    obtain ⟨after, hafter, hgathered⟩ :=
      flattens_text hr hothers ih henter hsource (h.quiet hread hdocuments.symm) hbody
    exact ⟨after, hafter, hgathered.quiet (hgathered.toReads.of_eq rfl rfl) rfl⟩

end

end Renderer
end AgentDocs
