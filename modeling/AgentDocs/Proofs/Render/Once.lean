import AgentDocs.Proofs.Render.Chain
import AgentDocs.Proofs.Render.Kept

/-! # Files that are included once

A document and the parts that are rendered inside of it share one list of the files that were
included once. A file is noted in it before it is rendered. So of all snippets in these texts that
include it once, at any depth and by any spelling, the first one that is dispatched has the file
rendered, and the others have no effect. A document that is rendered in between begins with an empty
list, and the one around it goes on with its own. -/
namespace AgentDocs
open Effect Markup Store Session

/-- Whether a dispatch is to include a file once. -/
def Dispatch.Includes (d : Dispatch) (p : Path) : Prop :=
  d.snippet.name = "include-once" ∧ d.snippet.arguments.map d.scope.resolve = [p]

instance (d : Dispatch) (p : Path) : Decidable (d.Includes p) :=
  inferInstanceAs (Decidable (_ ∧ _))

namespace Dispatch.Includes
variable {d : Dispatch} {p q : Path}

theorem eq (h : d.Includes p) (hq : d.snippet.arguments.map d.scope.resolve = [q]) : p = q :=
  List.head_eq_of_cons_eq (h.2.symm.trans hq)

theorem normal (h : d.Includes p) : p.normal = p := by
  have hmem : p ∈ d.snippet.arguments.map d.scope.resolve := h.2 ▸ List.mem_singleton_self p
  obtain ⟨reference, _, rfl⟩ := List.mem_map.1 hmem
  exact Renderer.normal_resolve _ _

end Dispatch.Includes

/-- Whether a dispatch changes nothing, and nothing stands for its snippet. -/
def Dispatch.Skips (d : Dispatch) : Prop := d.result = .ok (some []) ∧ d.after = d.before

/-- Whether a dispatch notes a file and has it rendered as a part, and the result stands for its
snippet. -/
def Dispatch.Expands (r : Renderer) (d : Dispatch) (p : Path) : Prop :=
  ∃ depth, let out := r.renderWithin depth (d.scope.part p) (d.before.noteIncluded p)
    d.result = Renderer.answerOf d.path d.snippet (out.1.mapError .ofRender) ∧ d.after = out.2

namespace Renderer

/-- The dispatches inside of a part. Those of a document that is rendered in between are its own. -/
def partsOnly (nested : Job → Session → List Dispatch) (job : Job) (s : Session) : List Dispatch :=
  match job.mode with
  | .part => nested job s
  | .document => []

/-- The dispatches of a file and of the parts that are rendered inside of it, in the order in which
they begin: those of a text from its last snippet to the first, and those of a part right behind
the one that has it rendered. -/
def ownDispatches (r : Renderer) : Nat → Job → Session → List Dispatch
  | 0, _, _ => []
  | depth + 1, job, s =>
    if isOpen job s then []
    else openDispatches r (renderWithin r depth) (partsOnly (ownDispatches r depth)) job
      (s.enter job.path.normal)

end Renderer

/-! ## What is included by then -/

/-- A dispatch at a moment at which some files have been included once. -/
structure Dispatch.Begins (r : Renderer) (store : Store) (seen : List Path) (d : Dispatch) :
    Prop where
  followed : ∃ depth, Renderer.follow r (Renderer.renderWithin r depth)
    (Renderer.dispatch r.registry d.scope d.path d.snippet) d.before = (d.result, d.after)
  store : SameContent store d.before.store
  included : d.before.included = seen

/-- Dispatches one after the other, and the files that have been included once before and after
them. -/
inductive Walk (r : Renderer) (store : Store) : List Path → List Dispatch → List Path → Prop
  | done {seen : List Path} : Walk r store seen [] seen
  | passed {seen after : List Path} {d : Dispatch} {ds : List Dispatch} : d.Begins r store seen →
      (∀ p, d.Includes p → (isFile p store).1 = .ok true → seen.any p.same = true) →
      Walk r store seen ds after → Walk r store seen (d :: ds) after
  | noted {seen after : List Path} {d : Dispatch} {ds : List Dispatch} {p : Path} :
      d.Begins r store seen → d.Includes p → (isFile p store).1 = .ok true →
      Walk r store (seen ++ [p]) ds after → Walk r store seen (d :: ds) after

namespace Walk
variable {r : Renderer} {store : Store} {seen mid after : List Path} {ds more : List Dispatch}

theorem append (h : Walk r store seen ds mid) (hmore : Walk r store mid more after) :
    Walk r store seen (ds ++ more) after := by
  induction h with
  | done => exact hmore
  | passed hbegins hpassed _ ih => exact .passed hbegins hpassed (ih hmore)
  | noted hbegins hincludes hthere _ ih => exact .noted hbegins hincludes hthere (ih hmore)

/-- Two snippets that include the same file once resolve it to the same path. -/
theorem any_same_concat {d e : Dispatch} {p q : Path} (hp : d.Includes p) (hq : e.Includes q) :
    (seen ++ [q]).any p.same = true ↔ seen.any p.same = true ∨ p = q := by
  have hsame : p.same q = true ↔ p = q :=
    ⟨fun h => Path.eq_of_normal hp.normal hq.normal (Path.same_iff.1 h),
      fun h => h ▸ Path.same_iff.2 rfl⟩
  rw [List.any_append, Bool.or_eq_true, List.any_cons, List.any_nil, Bool.or_false, hsame]

/-- A file has been included when a dispatch begins if it was before, or if one of the dispatches
before was to include it and the file is there. -/
theorem included_iff {earlier : List Dispatch} {d : Dispatch} {later : List Dispatch}
    (h : Walk r store seen (earlier ++ d :: later) after) {p : Path} (hp : d.Includes p) :
    d.Begins r store d.before.included ∧
      (d.before.included.any p.same = true ↔
        seen.any p.same = true ∨ (isFile p store).1 = .ok true ∧ ∃ e ∈ earlier, e.Includes p) := by
  induction earlier generalizing seen with
  | nil =>
    have hbegins : d.Begins r store seen := by
      cases h with
      | passed hbegins => exact hbegins
      | noted hbegins => exact hbegins
    refine ⟨⟨hbegins.followed, hbegins.store, rfl⟩, ?_⟩
    rw [hbegins.included]
    exact ⟨.inl, fun h => h.resolve_right fun ⟨_, e, he, _⟩ => List.not_mem_nil he⟩
  | cons first earlier ih =>
    rw [List.exists_mem_cons_iff]
    cases h with
    | passed hbegins hpassed hrest =>
      obtain ⟨hd, hiff⟩ := ih hrest
      refine ⟨hd, hiff.trans ⟨Or.imp_right (And.imp_right .inr), ?_⟩⟩
      rintro (hseen | ⟨hthere, hfirst | hearlier⟩)
      · exact .inl hseen
      · exact .inl (hpassed p hfirst hthere)
      · exact .inr ⟨hthere, hearlier⟩
    | @noted _ _ _ _ q hbegins hincludes hthere hrest =>
      obtain ⟨hd, hiff⟩ := ih hrest
      have hfirst : first.Includes p ↔ p = q := ⟨fun h => h.eq hincludes.2, fun h => h ▸ hincludes⟩
      rw [any_same_concat hp hincludes, or_assoc] at hiff
      refine ⟨hd, hiff.trans (or_congr_right ?_)⟩
      rw [hfirst]
      constructor
      · rintro (rfl | ⟨hthere', hearlier⟩)
        · exact ⟨hthere, .inl rfl⟩
        · exact ⟨hthere', .inr hearlier⟩
      · rintro ⟨hthere', rfl | hearlier⟩
        · exact .inl rfl
        · exact .inr ⟨hthere', hearlier⟩

end Walk

/-! ## Walking along a document -/

namespace Renderer

/-- Whether dispatches are walked along from one session to another. -/
def Walks (r : Renderer) (store : Store) (s : Session) (ds : List Dispatch) (t : Session) : Prop :=
  SameContent store s.store → SameContent store t.store ∧ Walk r store s.included ds t.included

theorem joins_walks (r : Renderer) (store : Store) : Joins (Walks r store) where
  refl _ hs := ⟨hs, .done⟩
  append hst htu hs := by
    obtain ⟨ht, hds⟩ := hst hs
    obtain ⟨hu, hmore⟩ := htu ht
    exact ⟨hu, hds.append hmore⟩

/-- Whether the files that are rendered at most so deep are walked along, if they are parts. -/
def WalksInside (r : Renderer) (store : Store) (depth : Nat) : Prop :=
  ∀ job s, Walks r store s (partsOnly (ownDispatches r depth) job s) (renderWithin r depth job s).2

variable {r : Renderer} {store : Store} {depth : Nat}

/-- Nothing is dispatched, and no file noted. -/
theorem walks_nil {s t : Session} (hstore : SameContent s.store t.store)
    (hincluded : s.included = t.included) : Walks r store s [] t := fun hs =>
  ⟨Trans.trans hs hstore, hincluded ▸ .done⟩

theorem walks_document {job : Job} (hmode : job.mode = .document) (s : Session) :
    Walks r store s (partsOnly (ownDispatches r depth) job s) (renderWithin r depth job s).2 := by
  have hnone : partsOnly (ownDispatches r depth) job s = [] := by rw [partsOnly, hmode]
  rw [hnone]
  exact walks_nil (moves_renderWithin depth job s).store
    (included_of_documents (documents_renderWithin depth hmode s))

theorem walks_perform (hin : WalksInside r store depth) {name : String}
    (hname : name ≠ "include-once") {a : Action}
    (ha : (Contract.keeping name fun _ => True).asks a) (s : Session) :
    Walks r store s (performNested r (partsOnly (ownDispatches r depth)) a s)
      (perform r (renderWithin r depth) a s).2 := by
  have hsteady : Steady s (perform r (renderWithin r depth) a s).2 :=
    steady_perform (moves_renderWithin depth) a s
  cases a with
  | render job => exact hin job s
  | importFile template source =>
    have hnone : performNested r (partsOnly (ownDispatches r depth)) (.importFile template source) s
        = [] := by
      rw [performNested]
      unfold Within.ifAnswered
      split
      · dsimp only
        split <;> rfl
      · rfl
    rw [hnone]
    exact walks_nil hsteady.store
      (included_of_documents (documents_importTarget depth template source s).symm)
  | keep other e =>
    refine walks_nil hsteady.store ?_
    unfold included
    exact congrArg _ (entriesOf_keep_of_ne (ha.symm ▸ hname) e s).symm
  | ask | kept | mention | note => exact walks_nil hsteady.store rfl

theorem walk_once (hin : WalksInside r store depth) {d : Dispatch}
    (hname : d.snippet.name = "include-once") {s : Session} (hs : SameContent store s.store)
    (hbegins : d.Begins r store s.included) {out : Except CommandError String × Session}
    {ds : List Dispatch}
    (h : Once r (renderWithin r depth) (partsOnly (ownDispatches r depth)) d.scope
      d.snippet.arguments s out ds) :
    SameContent store out.2.store ∧ Walk r store s.included (d :: ds) out.2.included := by
  cases h with
  | refused hmissing =>
    refine ⟨hs, .passed hbegins (fun p hp hthere => ?_) .done⟩
    obtain ⟨reference, hargs, rfl⟩ := List.map_eq_singleton_iff.1 hp.2
    exact absurd ((hs.isFile _).symm.trans hthere) (hmissing reference hargs)
  | @again q hq _ hseen =>
    refine ⟨hs, .passed hbegins (fun p hp _ => ?_) .done⟩
    obtain rfl : p = q := hp.eq hq
    exact hseen
  | @first q hq hfile _ =>
    obtain ⟨ht, hwalk⟩ := hin (d.scope.part q) (s.noteIncluded q) hs
    rw [included_noteIncluded] at hwalk
    exact ⟨ht, .noted hbegins ⟨hname, hq⟩ ((hs.isFile q).trans hfile) hwalk⟩

/-- One dispatch, with those in the part that it has rendered. -/
theorem walks_snippet (hin : WalksInside r store depth)
    (hfind : r.registry.find? "include-once" = some Command.includeOnce)
    (hown : ∀ c ∈ r.registry, c.KeepsOwn) (scope : Scope) (path : Path) (item : Snippet)
    (s : Session) :
    let script := dispatch r.registry scope path item
    let out := follow r (renderWithin r depth) script s
    Walks r store s (⟨scope, path, item, s, out.1, out.2⟩ ::
      scriptDispatches r (renderWithin r depth) (partsOnly (ownDispatches r depth)) script s)
      out.2 := by
  intro script out hs
  have hbegins : Dispatch.Begins r store s.included ⟨scope, path, item, s, out.1, out.2⟩ :=
    ⟨⟨depth, rfl⟩, hs, rfl⟩
  by_cases hname : item.name = "include-once"
  · have hcommand := hname ▸ hfind
    have hout : out.2 = (follow r (renderWithin r depth)
        (Command.includeOnce.invoke scope item.arguments) s).2 :=
      congrArg (·.2) (follow_dispatch_of_find? hcommand s)
    rw [hout] at hbegins ⊢
    rw [scriptDispatches_dispatch_of_find? hcommand]
    exact walk_once hin hname hs hbegins (once_invoke _ scope item.arguments s)
  · have hscript : script.Meets (.keeping item.name fun _ => True) (fun _ => True)
        fun _ => True := by
      refine meets_dispatch_command (fun command hfound => ?_) path
      obtain ⟨hmem, hcommand⟩ := Registry.mem_of_find? hfound
      exact hcommand ▸ hown command hmem scope item.arguments
    obtain ⟨ht, hwalk⟩ := (joins_walks r store).script (fun _ _ => trivial)
      (fun a s ha => walks_perform hin hname ha s) hscript s hs
    exact ⟨ht, .passed hbegins (fun p hp => absurd hp.1 hname) hwalk⟩

theorem walks_text (hin : WalksInside r store depth)
    (hfind : r.registry.find? "include-once" = some Command.includeOnce)
    (hown : ∀ c ∈ r.registry, c.KeepsOwn) (job : Job) (text : List Char) (s : Session) :
    Walks r store s
      (textDispatches r (renderWithin r depth) (partsOnly (ownDispatches r depth)) (r.scopeOf job)
        job.path.normal text s)
      (follow r (renderWithin r depth) (r.scriptOf job text) s).2 :=
  (joins_walks r store).text (fun item s => walks_snippet hin hfind hown _ _ item s) text s

/-- A file is read before its text is walked along. -/
theorem walks_open (hin : WalksInside r store depth)
    (hfind : r.registry.find? "include-once" = some Command.includeOnce)
    (hown : ∀ c ∈ r.registry, c.KeepsOwn) {job : Job} (hmode : job.mode = .part) (s : Session) :
    Walks r store s
      (openDispatches r (renderWithin r depth) (partsOnly (ownDispatches r depth)) job s)
      (renderOpen r (renderWithin r depth) job s).2 := by
  have hsource : Walks r store s [] (sourceOf job s).2 :=
    walks_nil (moves_sourceOf job s).store (included_of_documents (documents_sourceOf job s).symm)
  unfold openDispatches
  cases hout : sourceOf job s with
  | mk result t =>
    rw [hout] at hsource
    cases result with
    | error e =>
      rw [renderOpen_error hout]
      exact hsource
    | ok text =>
      rw [renderOpen_ok hout, hmode]
      exact (joins_walks r store).append hsource (walks_text hin hfind hown job text t)

theorem walksInside (hfind : r.registry.find? "include-once" = some Command.includeOnce)
    (hown : ∀ c ∈ r.registry, c.KeepsOwn) (depth : Nat) : WalksInside r store depth := by
  have hjoins := joins_walks r store
  induction depth with
  | zero =>
    intro job s
    have hnone : partsOnly (ownDispatches r 0) job s = [] := by
      unfold partsOnly
      split <;> rfl
    rw [hnone]
    cases hopen : isOpen job s with
    | true =>
      rw [renderWithin_of_isOpen hopen]
      exact hjoins.refl s
    | false =>
      rw [renderWithin_zero hopen]
      exact hjoins.refl s
  | succ depth ih =>
    intro job s
    cases hmode : job.mode with
    | document => exact walks_document hmode s
    | part =>
      rw [partsOnly, hmode, ownDispatches]
      dsimp only
      cases hopen : isOpen job s with
      | true =>
        rw [renderWithin_of_isOpen hopen]
        exact hjoins.refl s
      | false =>
        rw [renderWithin_succ hopen]
        exact walks_open ih hfind hown hmode (s.enter job.path.normal)

/-- A document is walked along from its beginning, when no file has been included. -/
theorem exists_walk (hfind : r.registry.find? "include-once" = some Command.includeOnce)
    (hown : ∀ c ∈ r.registry, c.KeepsOwn) (depth : Nat) {job : Job} (hmode : job.mode = .document)
    (s : Session) : ∃ after, Walk r s.store [] (ownDispatches r depth job s) after := by
  cases depth with
  | zero => exact ⟨[], .done⟩
  | succ depth =>
    rw [ownDispatches]
    split
    · exact ⟨[], .done⟩
    · have hstore := (moves_sourceOf job (s.enter job.path.normal)).store
      unfold openDispatches Within.ifAnswered
      split
      · rename_i text t hout
        rw [hout] at hstore
        rw [hmode]
        exact ⟨_, (walks_text (walksInside hfind hown depth) hfind hown job text
          (r.opened .document t) hstore).2⟩
      · exact ⟨[], .done⟩

/-- What comes of a snippet that includes a file once depends on whether the file is there, and then
on whether it has been included. -/
theorem result_of_includes (hfind : r.registry.find? "include-once" = some Command.includeOnce)
    {d : Dispatch} {seen : List Path} (hd : d.Begins r store seen) {p : Path} (hp : d.Includes p) :
    ((isFile p store).1 ≠ .ok true → ∃ e, d.result = .error e) ∧
      ((isFile p store).1 = .ok true →
        (seen.any p.same = true → d.Skips) ∧ (seen.any p.same = false → d.Expands r p)) := by
  obtain ⟨depth, hfollowed⟩ := hd.followed
  rw [follow_dispatch_of_find? (hp.1 ▸ hfind)] at hfollowed
  have honce := @once_invoke r (renderWithin r depth) (fun _ _ => []) d.scope d.snippet.arguments
    d.before
  generalize follow r (renderWithin r depth)
    (Command.includeOnce.invoke d.scope d.snippet.arguments) d.before = out at hfollowed honce
  generalize scriptDispatches r (renderWithin r depth) _ _ d.before = inside at honce
  have hresult : d.result = answerOf d.path d.snippet out.1 := congrArg (·.1) hfollowed.symm
  have hafter : d.after = out.2 := congrArg (·.2) hfollowed.symm
  rw [hd.store.isFile p, ← hd.included]
  cases honce with
  | refused hmissing =>
    obtain ⟨reference, hargs, rfl⟩ := List.map_eq_singleton_iff.1 hp.2
    exact ⟨fun _ => ⟨_, hresult⟩, fun hthere => absurd hthere (hmissing reference hargs)⟩
  | @again q hq hthere hseen =>
    obtain rfl : p = q := hp.eq hq
    refine ⟨fun hmissing => absurd hthere hmissing, fun _ => ⟨fun _ => ⟨hresult, hafter⟩, ?_⟩⟩
    rw [hseen]
    exact nofun
  | @first q hq hthere hnew =>
    obtain rfl : p = q := hp.eq hq
    refine ⟨fun hmissing => absurd hthere hmissing, fun _ => ⟨?_, fun _ => ?_⟩⟩
    · rw [hnew]
      exact nofun
    · exact ⟨depth, hresult, hafter⟩

/-- Of all snippets of a document and of the parts in it that include a file once, the first one
that is dispatched has the file rendered, and the others have no effect, provided the file is there.
-/
theorem include_once_expands_first (r : Renderer)
    (hfind : r.registry.find? "include-once" = some Command.includeOnce)
    (hown : ∀ c ∈ r.registry, c.KeepsOwn) (depth : Nat) (job : Job) (hmode : job.mode = .document)
    (s : Session) (i : Nat) (d : Dispatch) (hd : (r.ownDispatches depth job s)[i]? = some d)
    (p : Path) (hp : d.Includes p) :
    let earlier := (r.ownDispatches depth job s).take i
    ((isFile p s.store).1 ≠ .ok true → ∃ e, d.result = .error e) ∧
      ((isFile p s.store).1 = .ok true →
        ((∃ e ∈ earlier, e.Includes p) → d.Skips) ∧
          ((∀ e ∈ earlier, ¬e.Includes p) → d.Expands r p)) := by
  intro earlier
  obtain ⟨after, hwalk⟩ := exists_walk hfind hown depth hmode s
  obtain ⟨hlt, rfl⟩ := List.getElem?_eq_some_iff.1 hd
  have hsplit := List.take_append_drop i (r.ownDispatches depth job s)
  rw [List.drop_eq_getElem_cons hlt] at hsplit
  rw [← hsplit] at hwalk
  obtain ⟨hbegins, hiff⟩ := hwalk.included_iff hp
  obtain ⟨hmissing, hresult⟩ := result_of_includes hfind hbegins hp
  refine ⟨hmissing, fun hthere => ⟨fun hearlier => ?_, fun hfirst => ?_⟩⟩
  · exact (hresult hthere).1 (hiff.2 (.inr ⟨hthere, hearlier⟩))
  · refine (hresult hthere).2 (Bool.eq_false_iff.2 fun hseen => ?_)
    obtain hnone | ⟨_, e, he, hep⟩ := hiff.1 hseen
    · cases hnone
    · exact hfirst e he hep

/-- A file, and another one that includes it once. -/
def sharedFile : Memory :=
  (Memory.empty.put ⟨"/work/b.md"⟩ (.text "B")).put
    ⟨"/work/c.md"⟩ (.text "\x7b\x7binclude-once: ./b.md\x7d\x7d")

/-- A document that includes the first one once, and then the other one. -/
def sharingFile : Call :=
  ⟨⟨⟨⟨"/work/a.md"⟩, "a.md"⟩, [], none, true⟩, ⟨"/work/a.md"⟩, ⟨"/work"⟩,
    some "1\x7b\x7binclude-once: b.md\x7d\x7d2\x7b\x7binclude: c.md\x7d\x7d"⟩

/-- The part at the end has the file rendered, which has no effect at the beginning. -/
theorem shared_file_included_once :
    let r := make (.builtin .empty) ⟨"/work"⟩
    let s := start (.memory sharedFile)
    let b : Path := ⟨"/work/b.md"⟩
    let ds := r.ownDispatches (depthFor s.store) sharingFile.job s
    (r.call sharingFile s).1 = .ok "12B" ∧
      r.registry.find? "include-once" = some Command.includeOnce ∧
      (∀ c ∈ r.registry, c.KeepsOwn) ∧
      ∃ other first last, ds = [other, first, last] ∧ ¬other.Includes b ∧ first.Includes b ∧
        first.Expands r b ∧ last.Includes b ∧ last.Skips := by
  intro r s b ds
  have hfind : r.registry.find? "include-once" = some Command.includeOnce := rfl
  have hown : ∀ c ∈ r.registry, c.KeepsOwn := fun _ => Command.keepsOwn_of_mem_builtin
  have hthere : (isFile b s.store).1 = .ok true := by decide +kernel
  have hincludes : ds.map (fun d => decide (d.Includes b)) = [false, true, true] := by
    decide +kernel
  obtain ⟨other, rest, hds, hother, hrest⟩ := List.map_eq_cons_iff.1 hincludes
  obtain ⟨first, rest, rfl, hfirst, hrest⟩ := List.map_eq_cons_iff.1 hrest
  obtain ⟨last, rfl, hlast⟩ := List.map_eq_singleton_iff.1 hrest
  have hresult (i : Nat) (d : Dispatch) (hd : ds[i]? = some d) (hp : d.Includes b) :=
    (include_once_expands_first r hfind hown (depthFor s.store) sharingFile.job rfl s i d hd b
      hp).2 hthere
  have hother' : ¬other.Includes b := of_decide_eq_false hother
  have hfirst' : first.Includes b := of_decide_eq_true hfirst
  have hlast' : last.Includes b := of_decide_eq_true hlast
  refine ⟨by decide +kernel, hfind, hown, other, first, last, hds, hother', hfirst', ?_, hlast', ?_⟩
  · refine (hresult 1 first (by rw [hds]; rfl) hfirst').2 ?_
    have htake : ds.take 1 = [other] := by rw [hds]; rfl
    exact htake ▸ List.forall_mem_singleton.2 hother'
  · refine (hresult 2 last (by rw [hds]; rfl) hlast').1 ⟨first, ?_, hfirst'⟩
    have htake : ds.take 2 = [other, first] := by rw [hds]; rfl
    rw [htake]
    exact List.mem_cons_of_mem _ List.mem_cons_self

end Renderer
end AgentDocs
