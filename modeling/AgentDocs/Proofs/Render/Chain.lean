import Mathlib.Data.List.Nodup
import Mathlib.Logic.Relation
import AgentDocs.Proofs.Path.Absolute
import AgentDocs.Proofs.Render.Links
import AgentDocs.Proofs.Store.Places

/-! # Files that are rendered within one another

The files of a store refer to one another. The files that are being rendered at one moment are a
chain: each but the first is referred to by the one around it, all of them are different, and all
but the first are stored. So a chain is at most one file longer than the store, and a file that is
asked for inside of itself lies on a cycle. -/
namespace AgentDocs
open Store Relation

namespace Renderer

/-- The text that is rendered for a path: the given one for the document, or that of the file. -/
def textOf (store : Store) (doc : Job) (p : Path) : Option (List Char) :=
  match if p = doc.path.normal then doc.content else none with
  | some content => some content.toList
  | none =>
    match (readText p store).1 with
    | .ok content => some (Markup.stripHeaders content.toList)
    | .error _ => none

/-- Whether the text of a path refers to another path. -/
def Refers (r : Renderer) (store : Store) (doc : Job) (p q : Path) : Prop :=
  ∃ text, textOf store doc p = some text ∧ q ∈ r.linksOf doc.template p text

/-- Whether no path that a document leads to leads to itself. -/
def Acyclic (r : Renderer) (store : Store) (doc : Job) : Prop :=
  ∀ p, ReflTransGen (r.Refers store doc) doc.path.normal p →
    ¬TransGen (r.Refers store doc) p p

/-- The files that are rendered within one another, the innermost first. -/
inductive Chain (r : Renderer) (store : Store) (doc : Job) : List Path → Prop
  | document : Chain r store doc [doc.path.normal]
  | inside {p q : Path} {rest : List Path} : Chain r store doc (p :: rest) →
      r.Refers store doc p q → Stored store q → q ∉ p :: rest → Chain r store doc (q :: p :: rest)

/-- What is asked for while files are rendered: the document itself, or a file that the innermost
of them refers to. -/
inductive Requested (r : Renderer) (store : Store) (doc : Job) : Job → List Path → Prop
  | document : Requested r store doc doc []
  | inside {job : Job} {p : Path} {rest : List Path} : Chain r store doc (p :: rest) →
      r.Refers store doc p job.path.normal → Stored store job.path.normal → job.content = none →
      job.template = doc.template → Requested r store doc job (p :: rest)

variable {r : Renderer} {store : Store} {doc : Job}

theorem exists_of_mem_linksOf {template : TemplateScope} {p q : Path} {text : List Char}
    (h : q ∈ r.linksOf template p text) :
    ∃ reference,
      q = Scope.resolve ⟨template, r.root, p.parent?.getD r.root, r.root⟩ reference := by
  unfold linksOf at h
  split at h
  · cases h
  · split at h
    · obtain ⟨s, _, hs⟩ := List.mem_filterMap.1 h
      unfold Scope.linkOf? at hs
      split at hs
      · split at hs
        · cases hs
          exact ⟨_, rfl⟩
        · cases hs
      · cases hs
    · cases h

theorem normal_resolve (scope : Scope) (reference : String) :
    (scope.resolve reference).normal = scope.resolve reference := by
  unfold Scope.resolve
  split <;> exact Path.normal_normal _

theorem Refers.normal {p q : Path} (h : r.Refers store doc p q) : q.normal = q := by
  obtain ⟨text, _, hq⟩ := h
  obtain ⟨reference, rfl⟩ := exists_of_mem_linksOf hq
  exact normal_resolve _ _

theorem isAbsolute_resolve {scope : Scope} (hroot : scope.root.isAbsolute = true)
    (hdir : scope.workingDir.isAbsolute = true) (reference : String) :
    (scope.resolve reference).isAbsolute = true := by
  unfold Scope.resolve
  split
  · exact Path.isAbsolute_normal (Path.isAbsolute_join hroot)
  · exact Path.isAbsolute_normal (Path.isAbsolute_join hdir)

theorem Refers.places {p q : Path} (hroot : Places store r.root) (hp : Places store p)
    (h : r.Refers store doc p q) : Places store q := by
  obtain ⟨text, _, hq⟩ := h
  obtain ⟨reference, rfl⟩ := exists_of_mem_linksOf hq
  cases store with
  | memory m => trivial
  | disk d =>
    have hdir : (p.parent?.getD r.root).isAbsolute = true := by
      cases hparent : p.parent? with
      | none => exact hroot
      | some dir => exact Path.isAbsolute_parent? hp hparent
    exact @isAbsolute_resolve ⟨doc.template, r.root, p.parent?.getD r.root, r.root⟩ hroot hdir
      reference

theorem Chain.normal {ps : List Path} (h : r.Chain store doc ps) : ∀ p ∈ ps, p.normal = p := by
  induction h with
  | document => simp [Path.normal_normal]
  | inside _ hrefers _ _ ih =>
    intro p hp
    rcases List.mem_cons.1 hp with rfl | hp
    · exact hrefers.normal
    · exact ih p hp

theorem Chain.nodup {ps : List Path} (h : r.Chain store doc ps) : ps.Nodup := by
  induction h with
  | document => simp
  | inside _ _ _ hnew ih => exact List.nodup_cons.2 ⟨hnew, ih⟩

theorem Chain.places {ps : List Path} (hroot : Places store r.root)
    (hdoc : Places store doc.path.normal) (h : r.Chain store doc ps) :
    ∀ p ∈ ps, Places store p := by
  induction h with
  | document => simpa using hdoc
  | inside _ hrefers _ _ ih =>
    intro p hp
    rcases List.mem_cons.1 hp with rfl | hp
    · exact hrefers.places hroot (ih _ List.mem_cons_self)
    · exact ih p hp

/-- All files but the document are stored. -/
theorem Chain.stored {ps : List Path} (h : r.Chain store doc ps) :
    ∀ p ∈ ps.dropLast, Stored store p := by
  induction h with
  | document => simp
  | inside _ _ hstored _ ih =>
    intro p hp
    rw [List.dropLast_cons_cons] at hp
    rcases List.mem_cons.1 hp with rfl | hp
    · exact hstored
    · exact ih p hp

theorem nodup_parts {ps : List Path} (hnormal : ∀ p ∈ ps, p.normal = p) (h : ps.Nodup) :
    (ps.map Path.parts).Nodup :=
  h.map_on fun p hp q hq => Path.eq_of_normal (hnormal p hp) (hnormal q hq)

theorem Chain.length_le {ps : List Path} (h : r.Chain store doc ps) :
    ps.length ≤ store.files.length + 1 := by
  have hsub := List.dropLast_sublist ps
  have hnodup := nodup_parts (fun p hp => h.normal p (hsub.subset hp)) (h.nodup.sublist hsub)
  have hlen := length_le_files hnodup h.stored
  rw [List.length_dropLast] at hlen
  omega

/-- The document leads to every file of a chain, and every file to those inside of it. -/
theorem Chain.leads {ps : List Path} (h : r.Chain store doc ps) :
    ∀ p ∈ ps, ReflTransGen (r.Refers store doc) doc.path.normal p ∧
      ∀ q ∈ ps.head?, ReflTransGen (r.Refers store doc) p q := by
  induction h with
  | document => simp [ReflTransGen.refl]
  | inside _ hrefers _ _ ih =>
    intro p hp
    rcases List.mem_cons.1 hp with rfl | hp
    · exact ⟨(ih _ List.mem_cons_self).1.tail hrefers, by simp [ReflTransGen.refl]⟩
    · refine ⟨(ih p hp).1, fun q hq => ?_⟩
      cases hq
      exact ((ih p hp).2 _ rfl).tail hrefers

/-- The document is on every chain. -/
theorem Chain.document_mem {ps : List Path} (h : r.Chain store doc ps) : doc.path.normal ∈ ps := by
  induction h with
  | document => exact List.mem_cons_self
  | inside _ _ _ _ ih => exact List.mem_cons_of_mem _ ih

/-- All that is said of a chain without its links. -/
structure Nested (store : Store) (ps : List Path) : Prop where
  nodup : ps.Nodup
  normal : ∀ p ∈ ps, p.normal = p
  length_le : ps.length ≤ store.files.length + 1

theorem Chain.nested {ps : List Path} (h : r.Chain store doc ps) : Nested store ps :=
  ⟨h.nodup, h.normal, h.length_le⟩

theorem Nested.distinct {ps : List Path} (h : Nested store ps) :
    ps.Pairwise fun p q => ¬p.same q := by
  refine h.nodup.imp_of_mem fun {p q} hp hq hne hsame => hne ?_
  exact Path.eq_of_normal (h.normal p hp) (h.normal q hq) (Path.same_iff.1 hsame)

theorem Requested.nested {job : Job} {pending : List Path}
    (h : r.Requested store doc job pending) : Nested store pending := by
  cases h with
  | document => exact ⟨List.nodup_nil, nofun, Nat.zero_le _⟩
  | inside hchain => exact hchain.nested

theorem Requested.template {job : Job} {pending : List Path}
    (h : r.Requested store doc job pending) : job.template = doc.template := by
  cases h with
  | document => rfl
  | inside _ _ _ _ htemplate => exact htemplate

/-- A file that is not being rendered lengthens the chain. -/
theorem Requested.chain {job : Job} {pending : List Path} (h : r.Requested store doc job pending)
    (hnew : job.path.normal ∉ pending) : r.Chain store doc (job.path.normal :: pending) := by
  cases h with
  | document => exact .document
  | inside hchain hrefers hstored _ _ => exact .inside hchain hrefers hstored hnew

/-- A file that is asked for inside of itself lies on a cycle. -/
theorem Requested.not_acyclic {job : Job} {pending : List Path}
    (h : r.Requested store doc job pending) (hopen : job.path.normal ∈ pending) :
    ¬r.Acyclic store doc := by
  intro hacyclic
  cases h with
  | document => simp at hopen
  | inside hchain hrefers _ _ _ =>
    obtain ⟨hreach, hhead⟩ := hchain.leads _ hopen
    exact hacyclic _ hreach (TransGen.tail' (hhead _ rfl) hrefers)

end Renderer
end AgentDocs
