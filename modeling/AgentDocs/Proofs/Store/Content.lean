import AgentDocs.Proofs.Effect
import AgentDocs.Store.Basic

/-! # What a store holds

Two stores hold the same if their files and directories are the same; how often a file was read
does not count. What is asked of a store depends on what it holds, and does not change it. -/
namespace AgentDocs.Store
open Effect

def SameContent : Store → Store → Prop
  | .memory a, .memory b => a.files = b.files ∧ a.dirs = b.dirs
  | .disk a, .disk b => a = b
  | _, _ => False

instance : Std.Refl SameContent where
  refl s := by cases s <;> simp [SameContent]

theorem SameContent.symm {a b : Store} (h : SameContent a b) : SameContent b a := by
  cases a <;> cases b <;> simp_all [SameContent]

instance : Trans SameContent SameContent SameContent where
  trans {a b c} hab hbc := by
    cases a <;> cases b <;> cases c <;> simp_all [SameContent]

theorem SameContent.memory {m : Memory} {s : Store} (h : SameContent (.memory m) s) :
    ∃ m', s = .memory m' ∧ m'.files = m.files ∧ m'.dirs = m.dirs := by
  cases s with
  | memory m' => exact ⟨m', rfl, h.1.symm, h.2.symm⟩
  | disk d => exact h.elim

theorem SameContent.files {a b : Store} (h : SameContent a b) : a.files = b.files := by
  cases a <;> cases b <;> simp_all [SameContent, Store.files]

/-! ## Tasks that only look -/

theorem moves_query {α : Type} (p : Path) (f : Memory → Except Error α)
    (g : Disk → Except Fault α) : Moves SameContent (query p f g) := by
  intro s
  cases s <;> exact Std.Refl.refl _

theorem moves_read (p : Path) : Moves SameContent (read p) := by
  intro s
  cases s with
  | memory m =>
    simp only [read, Memory.noteRead]
    split <;> exact ⟨rfl, rfl⟩
  | disk d => exact Std.Refl.refl _

theorem moves_readText (p : Path) : Moves SameContent (readText p) :=
  (moves_read p).bind fun _ => moves_mk _

theorem readText_apply (p : Path) (s : Store) :
    (readText p s).1 = (read p s).1.bind (·.asText p) := by
  rw [readText, bind_apply]
  cases (read p s).1 <;> rfl

/-- What is read depends on what a store holds. -/
theorem readText_congr {a b : Store} (h : SameContent a b) (p : Path) :
    (readText p a).1 = (readText p b).1 := by
  have hread : (read p a).1 = (read p b).1 := by
    cases a <;> cases b <;> simp_all [SameContent, read, Memory.content?]
  rw [readText_apply, readText_apply, hread]

theorem moves_isFile (p : Path) : Moves SameContent (isFile p) := moves_query _ _ _

theorem moves_isDir (p : Path) : Moves SameContent (isDir p) := moves_query _ _ _

theorem moves_children (p : Path) : Moves SameContent (children p) := moves_query _ _ _

theorem moves_listFiles (dir : Path) (pattern : String) :
    Moves SameContent (listFiles dir pattern) :=
  (moves_mk _).bind fun _ => moves_query _ _ _

theorem moves_listDirs (dir : Path) (pattern : String) :
    Moves SameContent (listDirs dir pattern) :=
  (moves_mk _).bind fun _ => moves_query _ _ _

theorem moves_answer (q : Question) : Moves SameContent (answer q) := by
  cases q with
  | exists? p kind => exact moves_query _ _ _
  | read p => exact moves_read p
  | children dir => exact moves_children dir
  | files dir pattern => exact moves_listFiles dir pattern
  | dirs dir pattern => exact moves_listDirs dir pattern

/-- What is answered depends on what a store holds. -/
theorem answer_congr {a b : Store} (h : SameContent a b) (q : Question) :
    (answer q a).1 = (answer q b).1 := by
  cases a with
  | disk d =>
    cases b with
    | disk d' =>
      cases h
      rfl
    | memory m => exact h.elim
  | memory m =>
    obtain ⟨⟨files, dirs, reads⟩, rfl, hfiles, hdirs⟩ := h.memory
    cases hfiles
    cases hdirs
    cases q with
    | exists? p kind => cases kind with
      | none => rfl
      | some kind => cases kind <;> rfl
    | read p => rfl
    | children dir => rfl
    | files dir pattern =>
      simp only [answer, listFiles, bind_apply]
      cases Store.compile pattern <;> rfl
    | dirs dir pattern =>
      simp only [answer, listDirs, bind_apply]
      cases Store.compile pattern <;> rfl

/-! ## What a store has at a path -/

/-- Whether two stores have the same at a path, whatever else they have. -/
def SameAt (p : Path) : Store → Store → Prop
  | .memory m, .memory m' => PathMap.get? p m.files = PathMap.get? p m'.files
  | .disk d, .disk d' => d.find p = d'.find p
  | _, _ => False

def SameOn (P : Path → Prop) (s t : Store) : Prop := ∀ p, P p → SameAt p s t

theorem SameContent.sameAt {s t : Store} (h : SameContent s t) (p : Path) : SameAt p s t := by
  cases s <;> cases t <;> simp_all [SameAt, SameContent]

theorem SameAt.of_sameContent {p : Path} {s t s' t' : Store} (h : SameAt p s t)
    (hs : SameContent s s') (ht : SameContent t t') : SameAt p s' t' := by
  cases s <;> cases s' <;> cases t <;> cases t' <;> simp_all [SameAt, SameContent]

section SameOn
variable {P : Path → Prop} {p : Path}

/-- Looking keeps stores the same where they are the same. -/
theorem mirrors_of_moves {α : Type} {x : Access α} (hx : Moves SameContent x)
    (hanswer : ∀ s t, SameOn P s t → (x s).1 = (x t).1) : Mirrors (SameOn P) x x :=
  fun s t h => ⟨hanswer s t h, fun p hp => (h p hp).of_sameContent (hx s) (hx t)⟩

theorem mirrors_isFile_same (hp : P p) : Mirrors (SameOn P) (isFile p) (isFile p) := by
  refine mirrors_of_moves (moves_isFile p) fun s t h => ?_
  have hsame := h p hp
  cases s <;> cases t
  · simp_all [SameAt, isFile, exists?, query, Memory.exists?, Memory.isFile, PathMap.has]
  · exact hsame.elim
  · exact hsame.elim
  · simp_all [SameAt, isFile, exists?, query, Disk.exists?]

theorem mirrors_readText_same (hp : P p) : Mirrors (SameOn P) (readText p) (readText p) := by
  refine mirrors_of_moves (moves_readText p) fun s t h => ?_
  have hsame := h p hp
  rw [readText_apply, readText_apply]
  cases s <;> cases t
  · simp_all [SameAt, Store.read, Memory.content?]
  · exact hsame.elim
  · exact hsame.elim
  · simp_all [SameAt, Store.read, Disk.read]

end SameOn

/-! ## Errors in another form -/

theorem Task.wrapError_ok {ε δ α : Type} {wrap : δ → ε} {task : Task δ α} {a : α} {s t : Store} :
    task.wrapError wrap s = (.ok a, t) ↔ task s = (.ok a, t) := by
  cases h : task s with
  | mk result t' =>
    rw [Task.wrapError, h]
    cases result <;> constructor <;> intro he <;> cases he <;> rfl

theorem Task.moves_wrapError {ε δ α : Type} {R : Store → Store → Prop} {wrap : δ → ε}
    {task : Task δ α} (h : Moves R task) : Moves R (task.wrapError wrap) := h

theorem Task.mirrors_wrapError {ε δ α : Type} {R : Store → Store → Prop} {x y : Task δ α}
    (wrap : δ → ε) (h : Mirrors R x y) : Mirrors R (x.wrapError wrap) (y.wrapError wrap) :=
  fun s t hst => ⟨congrArg (Except.mapError wrap) (h s t hst).1, (h s t hst).2⟩

end AgentDocs.Store
