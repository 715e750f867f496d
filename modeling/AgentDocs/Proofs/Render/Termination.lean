import AgentDocs.Proofs.Render.Inclusion

/-! # Rendering ends

However files include and import one another, the depth of a rendering never runs out, and an
inclusion is circular only if it is of a file that is being rendered. -/
namespace AgentDocs
open Store Session

namespace Renderer
variable {r : Renderer} {store : Store} {doc : Job}

theorem Proper.nested {level : Nat} {m : Moment} (h : Proper r store doc level m) :
    Nested store m.chain := by
  have hchain := h.chain
  cases hevent : m.event with
  | request job =>
    rw [hevent] at hchain
    have hm : m.chain = if isOpen job m.session then m.session.pending
        else job.path.normal :: m.session.pending := by
      rw [Moment.chain, hevent]
    cases hopen : isOpen job m.session with
    | true =>
      rw [hm, if_pos hopen]
      exact hchain.nested
    | false =>
      have hnew : job.path.normal ∉ m.session.pending := by
        rw [← isOpen_iff hchain.nested.normal, hopen]
        exact Bool.false_ne_true
      rw [hm, if_neg (Bool.eq_false_iff.1 hopen)]
      exact (hchain.chain hnew).nested
  | source _ | action _ =>
    rw [hevent] at hchain
    have hm : m.chain = m.session.pending := by rw [Moment.chain, hevent]
    exact hm ▸ hchain.nested

theorem along_after (r : Renderer) (store : Store) (known : List (Path × Path))
    (calls : List Call) : Along store [] (r.after calls ((start store).withTargets known)) := by
  have hsteady := steady_after (r := r) calls ((start store).withTargets known)
  exact ⟨hsteady.store, hsteady.pending.symm, hsteady.faithful (faithful_start store known)⟩

theorem places_normal {store : Store} {p : Path} (h : Places store p) :
    Places store p.normal := by
  cases store with
  | memory m => trivial
  | disk d => exact Path.isAbsolute_normal h

/-- From some depth on a rendering does not depend on the depth. -/
theorem renderWithin_eq_of_le {job : Job} {s : Session} {least : Nat}
    (h : ∀ depth, least ≤ depth → renderWithin r depth job s = renderWithin r (depth + 1) job s)
    {depth : Nat} (hle : least ≤ depth) :
    renderWithin r depth job s = renderWithin r least job s := by
  induction hle with
  | refl => rfl
  | step hle ih => rw [← h _ hle, ih]

section Document
variable {classes : ClassIndex} (hr : r.registry = .builtin classes) (hroot : Places store r.root)
  {c : Call} (hpath : Places store c.path) {s : Session} (hs : Along store [] s)
include hr hroot hpath hs

theorem explained_call (depth : Nat) : Explained r store c.job depth c.job s :=
  explained hr hroot (places_normal hpath) depth c.job s [] hs .document

omit hr hroot hpath in
theorem depthFor_of_along : depthFor s.store = store.files.length + 2 + unstoredDepth := by
  rw [← depthFor_congr hs.store, depthFor]

/-- More depth than there are files makes no difference to a document. -/
theorem renderWithin_eq_call {depth : Nat} (hle : store.files.length + 1 ≤ depth) :
    renderWithin r depth c.job s = r.call c s := by
  have hsettled (depth : Nat) (hle : store.files.length + 1 ≤ depth) :=
    (explained_call hr hroot hpath hs depth).settled (by omega)
  have hcall : store.files.length + 1 ≤ depthFor s.store := by
    rw [depthFor_of_along hs]
    omega
  rw [call_apply, renderWithin_eq_of_le hsettled hle, renderWithin_eq_of_le hsettled hcall]

theorem proper_callTrace :
    ∀ m ∈ r.callTrace c s, Proper r store c.job (depthFor s.store + s.pending.length) m :=
  (explained_call hr hroot hpath hs (depthFor s.store)).moments

/-- While a document is rendered there is depth left. -/
theorem depth_ne_zero : ∀ m ∈ r.callTrace c s, m.depth ≠ 0 := by
  intro m hm
  have hproper := proper_callTrace hr hroot hpath hs m hm
  have hchain : m.session.pending.length ≤ m.chain.length := by
    rw [Moment.chain]
    split
    · split
      · exact Nat.le_refl _
      · exact Nat.le_succ _
    · exact Nat.le_refl _
  have hlength := hproper.nested.length_le
  have hlevel := hproper.level
  rw [depthFor_of_along hs] at hlevel
  omega

end Document

/-- However files include and import one another, rendering ends: those that are rendered within
one another are different, and at most one more than are stored. An inclusion is circular only if
it is of a file that is being rendered, so never if the references are acyclic. -/
theorem call_terminates {classes : ClassIndex} (r : Renderer) (hr : r.registry = .builtin classes)
    (store : Store) (hroot : Places store r.root) (known : List (Path × Path)) (calls : List Call)
    (c : Call) (hpath : Places store c.path) :
    let s := r.after calls ((start store).withTargets known)
    (∀ depth, store.files.length + 1 ≤ depth → renderWithin r depth c.job s = r.call c s) ∧
    (∀ m ∈ r.callTrace c s, (m.chain.Pairwise fun p q => ¬p.same q) ∧
      m.chain.length ≤ store.files.length + 1) ∧
    ∀ e, (r.call c s).1 = .error e → ∀ p, e.innermost ≠ .tooDeep p ∧
      (e.innermost = .circularInclusion p → ∃ m ∈ r.callTrace c s, ∃ job,
        m.event = .request job ∧ job.path.normal = p ∧ m.session.pending.any p.same = true) ∧
      (r.Acyclic store c.job → e.innermost ≠ .circularInclusion p) := by
  intro s
  have hs : Along store [] s := along_after r store known calls
  have hmoments := proper_callTrace hr hroot hpath hs
  have hblamed := (explained_call hr hroot hpath hs (depthFor s.store)).result
  rw [← call_apply] at hblamed
  have hopens (e : RenderError) (he : (r.call c s).1 = .error e) (p : Path)
      (hcircular : e.innermost = .circularInclusion p) : ∃ m ∈ r.callTrace c s, ∃ job,
        m.event = .request job ∧ job.path.normal = p ∧ isOpen job m.session = true :=
    (hblamed e he).circular p hcircular
  refine ⟨fun depth => renderWithin_eq_call hr hroot hpath hs, fun m hm => ?_,
    fun e he p => ⟨fun hdeep => ?_, fun hcircular => ?_, fun hacyclic hcircular => ?_⟩⟩
  · exact ⟨(hmoments m hm).nested.distinct, (hmoments m hm).nested.length_le⟩
  · obtain ⟨m, hm, job, hevent, hzero, _⟩ := (hblamed e he).deep p hdeep
    exact depth_ne_zero hr hroot hpath hs m hm hzero
  · obtain ⟨m, hm, job, hevent, rfl, hopen⟩ := hopens e he p hcircular
    exact ⟨m, hm, job, hevent, rfl, hopen⟩
  · obtain ⟨m, hm, job, hevent, rfl, hopen⟩ := hopens e he p hcircular
    have hchain := (hmoments m hm).chain
    rw [hevent] at hchain
    exact hchain.not_acyclic ((isOpen_iff hchain.nested.normal).1 hopen) hacyclic

/-- Two files that include each other, one of them by another spelling. -/
def includeEachOther : Memory :=
  (Memory.empty.put ⟨"/work/a.md"⟩ (.text "A \x7b\x7binclude: b.md\x7d\x7d")).put
    ⟨"/work/b.md"⟩ (.text "B \x7b\x7binclude: ./c/../a.md\x7d\x7d")

def firstOfThem : Call :=
  ⟨⟨⟨⟨"/work/a.md"⟩, "a.md"⟩, [], none, true⟩, ⟨"/work/a.md"⟩, ⟨"/work"⟩, none⟩

/-- The first file fails, and fails again in the same way: it is asked for inside of itself. -/
theorem include_each_other_circular :
    let r := make (.builtin .empty) ⟨"/work"⟩
    let s := r.after [firstOfThem] ((start (.memory includeEachOther)).withTargets [])
    let first : Path := ⟨"/work/a.md"⟩
    let inside : RenderError := .ofCommand ⟨"/work/b.md"⟩ "include"
      (.ofRender (.circularInclusion first))
    (r.call firstOfThem s).1 = .error (.ofCommand first "include" (.ofRender inside)) ∧
      ∃ m ∈ r.callTrace firstOfThem s, ∃ job, m.event = .request job ∧
        job.path.normal = first ∧ m.session.pending.any first.same = true := by
  intro r s first inside
  have hresult :
      (r.call firstOfThem s).1 = .error (.ofCommand first "include" (.ofRender inside)) := by
    decide +kernel
  obtain ⟨_, _, herrors⟩ :=
    call_terminates r rfl (.memory includeEachOther) trivial [] [firstOfThem] firstOfThem trivial
  exact ⟨hresult, (herrors _ hresult _).2.1 rfl⟩

end Renderer
end AgentDocs
