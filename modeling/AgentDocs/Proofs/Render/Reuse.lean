import AgentDocs.Command.Builtin
import AgentDocs.Proofs.Render.Alike
import AgentDocs.Proofs.Render.Along

/-! # A renderer that is used again

What is remembered from the documents before is never read again, and makes no difference to a
document that imports nothing. -/
namespace AgentDocs
open Effect Store Session

/-- The file that is read with success, if this is what happens. -/
def Moment.read? (m : Moment) : Option Path :=
  match m.event with
  | .source p => match (readText p m.session.store).1 with
    | .ok _ => some p
    | .error _ => none
  | _ => none

/-- The files that are read with success. -/
def Trace.reads (trace : Trace) : List Path := trace.filterMap Moment.read?

/-- What is read between two sessions is not remembered in the first, is in the second, and is
read once. -/
structure ReadOnce (s : Session) (trace : Trace) (t : Session) : Prop where
  kept : ∀ p, PathMap.has p s.bodies = true → PathMap.has p t.bodies = true
  unread : ∀ p ∈ trace.reads, PathMap.has p s.bodies = false
  remembered : ∀ p ∈ trace.reads, PathMap.has p t.bodies = true
  once : trace.reads.Pairwise fun p q => ¬p.same q

namespace ReadOnce
variable {s t u : Session} {trace later : Trace}

theorem of_same {s' t' : Session} {trace' : Trace} (h : ReadOnce s trace t)
    (htrace : trace'.reads = trace.reads) (hs : s.bodies = s'.bodies) (ht : t.bodies = t'.bodies) :
    ReadOnce s' trace' t' :=
  ⟨fun p hp => ht ▸ h.kept p (hs ▸ hp), fun p hp => hs ▸ h.unread p (htrace ▸ hp),
    fun p hp => ht ▸ h.remembered p (htrace ▸ hp), htrace ▸ h.once⟩

/-- Where nothing is read, bodies stay. -/
theorem of_reads_eq_nil (htrace : trace.reads = []) (hbodies : s.bodies = t.bodies) :
    ReadOnce s trace t := by
  refine ⟨fun p hp => hbodies ▸ hp, ?_, ?_, ?_⟩ <;> rw [htrace]
  · nofun
  · nofun
  · exact List.Pairwise.nil

theorem append (h : ReadOnce s trace t) (hlater : ReadOnce t later u) :
    ReadOnce s (trace ++ later) u := by
  have hreads : Trace.reads (trace ++ later) = trace.reads ++ later.reads := List.filterMap_append
  refine ⟨fun p => hlater.kept p ∘ h.kept p, fun p hp => ?_, fun p hp => ?_, ?_⟩
  · rw [hreads] at hp
    rcases List.mem_append.1 hp with hp | hp
    · exact h.unread p hp
    · have hunread := hlater.unread p hp
      rw [Bool.eq_false_iff] at hunread ⊢
      exact fun hs => hunread (h.kept p hs)
  · rw [hreads] at hp
    rcases List.mem_append.1 hp with hp | hp
    · exact hlater.kept p (h.remembered p hp)
    · exact hlater.remembered p hp
  · rw [hreads]
    refine List.pairwise_append.2 ⟨h.once, hlater.once, fun p hp q hq hsame => ?_⟩
    have hq' := hlater.unread q hq
    rw [← PathMap.has_congr (Path.same_iff.1 hsame), h.remembered p hp] at hq'
    cases hq'

end ReadOnce

namespace Renderer
variable {r : Renderer}

theorem readOnce_sourceOf (s : Session) (depth : Nat) (job : Job) :
    ReadOnce s (sourceTrace depth job s) (sourceOf job s).2 := by
  cases hcontent : job.content with
  | some content =>
    rw [sourceTrace, sourceOf, hcontent]
    exact .of_reads_eq_nil rfl rfl
  | none =>
    rw [sourceTrace, sourceOf, hcontent]
    change ReadOnce s (if PathMap.has job.path.normal s.bodies then [] else
      [⟨s, depth, .source job.path.normal⟩]) (body job.path.normal s).2
    obtain ⟨_, hget, hbody⟩ | ⟨hget, store, ⟨e, hread, hbody⟩ | ⟨content, hread, hbody⟩⟩ :=
      body_cases job.path.normal s
    · rw [if_pos (PathMap.has_iff.2 ⟨_, hget⟩), hbody]
      exact .of_reads_eq_nil rfl rfl
    · have hreads : Trace.reads (if PathMap.has job.path.normal s.bodies then [] else
          [⟨s, depth, .source job.path.normal⟩]) = [] := by
        split
        · rfl
        · simp only [Trace.reads, List.filterMap_cons, List.filterMap_nil, Moment.read?, hread]
      rw [hbody]
      exact .of_reads_eq_nil hreads rfl
    · have hnot : PathMap.has job.path.normal s.bodies = false := by rw [PathMap.has, hget]; rfl
      have hreads : Trace.reads [⟨s, depth, .source job.path.normal⟩] = [job.path.normal] := by
        simp only [Trace.reads, List.filterMap_cons, List.filterMap_nil, Moment.read?, hread]
      rw [hnot, hbody]
      refine ⟨fun p => PathMap.has_insert, ?_, ?_, ?_⟩
      · simpa [hreads] using hnot
      · simpa [hreads] using PathMap.has_insert_self _ _ _
      · simp [hreads]

theorem bodies_placeImport (source : Path) (s : Session) :
    s.bodies = (placeImport r source s).2.bodies := by
  obtain ⟨store, ⟨_, hp⟩ | ⟨_, _, hp⟩ | ⟨_, hp⟩⟩ := placeImport_cases r source s <;> rw [hp]

theorem traced_readOnce : Traced r ReadOnce where
  append := .append
  quiet _ hbodies _ := .of_reads_eq_nil rfl hbodies
  request _ _ _ := .of_reads_eq_nil rfl rfl
  source := readOnce_sourceOf
  plain s depth inner a ha := by
    cases a with
    | render | importFile => exact ha.elim
    | ask | keep | kept | mention | note => exact .of_reads_eq_nil rfl rfl
  render _ _ _ := .of_reads_eq_nil rfl rfl
  placed {s t depth template source result} hplace _ := by
    have hbodies := bodies_placeImport (r := r) source s
    rw [hplace] at hbodies
    exact .of_reads_eq_nil rfl hbodies
  given {s t depth template source target out trace} hplace _ htrace := by
    have hbodies := bodies_placeImport (r := r) source s
    rw [hplace] at hbodies
    refine htrace.of_same rfl hbodies.symm ?_
    obtain ⟨result, u⟩ := out
    cases result <;> rfl

theorem documents_after (calls : List Call) (s : Session) :
    s.documents = (r.after calls s).documents := by
  induction calls generalizing s with
  | nil => rfl
  | cons c calls ih => exact (documents_call c s).trans (ih _)

/-- A renderer that was used is like one that was not. -/
theorem alike_after (r : Renderer) (store : Store) (known known' : List (Path × Path))
    (calls : List Call) :
    Alike (r.after calls ((start store).withTargets known)) ((start store).withTargets known') where
  store := (steady_after calls _).store.symm
  pending := (steady_after calls _).pending.symm
  documents := (documents_after calls _).symm
  left := (steady_after calls _).faithful (faithful_start store known)
  right := faithful_start store known'

/-- After any documents, whether they failed or not, a document that imports nothing is rendered
as by a new renderer. No file and no document stays open, and no file is read twice. -/
theorem call_after (r : Renderer) (store : Store) (known known' : List (Path × Path))
    (calls : List Call) (c : Call) :
    let new := (start store).withTargets known'
    let used := r.after calls ((start store).withTargets known)
    ((r.callTrace c new).ImportsNothing → (r.call c used).1 = (r.call c new).1) ∧
    (r.call c used).2.pending = used.pending ∧
    (r.call c used).2.documents = used.documents ∧
    (r.callsTrace (calls ++ [c]) ((start store).withTargets known)).reads.Pairwise
      fun p q => ¬p.same q := by
  intro new used
  have halike : Alike used new := alike_after r store known known' calls
  exact ⟨fun hnone => (agree_call c halike hnone).result, (moves_call c used).pending.symm,
    (documents_call c used).symm, (traced_readOnce.callsTrace _ _).once⟩

/-- Two documents with a part in common. The first also includes a file there is not. -/
def sharedPart : Memory :=
  ((Memory.empty.put ⟨"/work/a.md"⟩
      (.text "\x7b\x7binclude: missing.md\x7d\x7d \x7b\x7binclude: part.md\x7d\x7d")).put
    ⟨"/work/b.md"⟩ (.text "B \x7b\x7binclude: part.md\x7d\x7d")).put
    ⟨"/work/part.md"⟩ (.text "P \x7b\x7bfrom\x7d\x7d")

/-- A document that tells its parts where they are. -/
def tellingPart (name : String) : Call :=
  ⟨⟨⟨⟨"/work/" ++ name⟩, name⟩, [("from", name)], none, true⟩, ⟨"/work/" ++ name⟩, ⟨"/work"⟩, none⟩

/-- The second document is the same after the first one has read the part and failed. -/
theorem shared_part_again :
    let r := make (.builtin .empty) ⟨"/work"⟩
    let new := (start (.memory sharedPart)).withTargets []
    let used := r.after [tellingPart "a.md"] new
    (r.call (tellingPart "a.md") new).1
        = .error (.ofCommand ⟨"/work/a.md"⟩ "include" (.missingFile ⟨"/work/missing.md"⟩)) ∧
      used.bodies.map (·.1) = [⟨"/work/a.md"⟩, ⟨"/work/part.md"⟩] ∧
      (r.call (tellingPart "b.md") used).1 = .ok "B P b.md" := by
  intro r new used
  have hnone : (r.callTrace (tellingPart "b.md") new).ImportsNothing := by decide +kernel
  have hnew : (r.call (tellingPart "b.md") new).1 = .ok "B P b.md" := by decide +kernel
  have hused :=
    call_after r (.memory sharedPart) [] [] [tellingPart "a.md"] (tellingPart "b.md")
  exact ⟨by decide +kernel, by decide +kernel, (hused.1 hnone).trans hnew⟩

end Renderer
end AgentDocs
