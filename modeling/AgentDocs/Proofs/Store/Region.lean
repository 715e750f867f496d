import AgentDocs.Proofs.Store.Confined

/-! # The files in a region

A region is a set of places. What is done to files outside of a region leaves the files in it as
they were, and of stores with the same files in a region the same is learnt about these files. -/
namespace AgentDocs.Store
open Effect

/-- A set of places. They are told by their parts, so that no spelling counts. -/
abbrev Region := List Part → Bool

namespace Memory

def filesIn (m : Memory) (K : Region) : PathMap Content := m.files.filter fun e => K e.1.parts

variable {m m' : Memory} {K : Region} {p : Path}

theorem filesIn_congr (h : m'.files = m.files) : m'.filesIn K = m.filesIn K := by
  rw [filesIn, h, filesIn]

theorem get?_of_filesIn (h : m'.filesIn K = m.filesIn K) (hp : K p.parts = true) :
    PathMap.get? p m'.files = PathMap.get? p m.files := by
  rw [← PathMap.get?_filter hp m'.files, ← PathMap.get?_filter hp m.files]
  exact congrArg (PathMap.get? p) h

theorem filesIn_write {content : Content} (hp : K p.parts = false)
    (h : m.write p content = .ok m') : m'.filesIn K = m.filesIn K := by
  obtain ⟨_, _, _, rfl⟩ := eq_of_write h
  exact PathMap.filter_insert hp content m.files

theorem filesIn_remove (hp : K p.parts = false) (h : m.remove p = .ok m') :
    m'.filesIn K = m.filesIn K := by
  rw [eq_of_remove h]
  exact PathMap.filter_erase hp m.files

end Memory

/-! ## What is done elsewhere -/

variable {File Dir : Path → Prop} {K : Region} {m : Memory}

theorem memory_of_change {R : Memory → Prop} {p : Path} {f : Memory → Except Error Memory}
    {g : Disk → Except Fault Disk} (hsame : R m) (h : ∀ m', f m = .ok m' → R m') :
    ∃ m', (change p f g (.memory m)).2 = .memory m' ∧ R m' := by
  simp only [change]
  split
  · rename_i m' hm
    exact ⟨m', rfl, h m' hm⟩
  · exact ⟨m, rfl, hsame⟩

/-- What is done to files outside of a region. -/
theorem Confined.filesIn {t : Store} (h : Confined File Dir (.memory m) t)
    (hfile : ∀ p, File p → K p.parts = false) :
    ∃ m', t = .memory m' ∧ m'.filesIn K = m.filesIn K := by
  induction h with
  | refl => exact ⟨m, rfl, rfl⟩
  | tail _ hstep ih =>
    obtain ⟨m₁, rfl, hm₁⟩ := ih
    have hfiles {t : Store} (hsame : SameFiles (.memory m₁) t) :
        ∃ m', t = .memory m' ∧ m'.filesIn K = m.filesIn K := by
      obtain ⟨m', rfl, hm'⟩ := hsame.memory
      exact ⟨m', rfl, (Memory.filesIn_congr hm').trans hm₁⟩
    cases hstep with
    | look hsame => exact hfiles hsame.sameFiles
    | createDirs p => exact hfiles (sameFiles_createDirs p _)
    | removeDir p => exact hfiles (sameFiles_removeDir _ _)
    | write content _ hp =>
      exact memory_of_change hm₁ fun m' h => (Memory.filesIn_write (hfile _ hp) h).trans hm₁
    | remove _ hp =>
      exact memory_of_change hm₁ fun m' h => (Memory.filesIn_remove (hfile _ hp) h).trans hm₁

/-- A directory stays if no directory with its parts is removed. -/
theorem Confined.isDir {t : Store} {q : Path} (h : Confined File Dir (.memory m) t)
    (hdir : ∀ p, Dir p → p.parts ≠ q.parts) (hq : m.isDir q = true) :
    ∃ m', t = .memory m' ∧ m'.isDir q = true := by
  induction h with
  | refl => exact ⟨m, rfl, hq⟩
  | tail _ hstep ih =>
    obtain ⟨m₁, rfl, hm₁⟩ := ih
    have hdirs {m' : Memory} (h : m'.dirs = m₁.dirs) : m'.isDir q = true := by
      rwa [Memory.isDir_congr h]
    cases hstep with
    | look hsame =>
      obtain ⟨m', rfl, _, hm'⟩ := hsame.memory
      exact ⟨m', rfl, hdirs hm'⟩
    | createDirs p =>
      refine memory_of_change hm₁ fun m' h => ?_
      rw [Memory.eq_of_createDir h]
      exact Memory.isDir_addDirs hm₁
    | write content _ hp =>
      refine memory_of_change hm₁ fun m' h => hdirs ?_
      obtain ⟨_, _, _, rfl⟩ := Memory.eq_of_write h
      rfl
    | remove _ hp =>
      refine memory_of_change hm₁ fun m' h => hdirs ?_
      rw [Memory.eq_of_remove h]
    | removeDir _ hp =>
      refine memory_of_change hm₁ fun m' h => ?_
      rw [Memory.eq_of_removeDir h, Memory.isDir, PathMap.has, PathMap.get?_erase,
        if_neg (hdir _ hp)]
      exact hm₁

/-! ## What is learnt of files in the region -/

/-- Whether two stores hold what two others hold. -/
structure Beside (a b s t : Store) : Prop where
  left : SameContent a s
  right : SameContent b t

/-- A task that depends on what a store holds answers the same beside stores on which it does. -/
theorem mirrors_beside {ε α : Type} {task : Task ε α} {a b : Store}
    (hmoves : Moves SameContent task)
    (hcongr : ∀ s t, SameContent s t → (task s).1 = (task t).1)
    (h : (task a).1 = (task b).1) : Mirrors (Beside a b) task task := by
  intro s t hst
  refine ⟨?_, Trans.trans hst.left (hmoves s), Trans.trans hst.right (hmoves t)⟩
  rw [← hcongr a s hst.left, h, hcongr b t hst.right]

theorem mirrors_sameContent {ε α : Type} {task : Task ε α} (hmoves : Moves SameContent task)
    (hcongr : ∀ s t, SameContent s t → (task s).1 = (task t).1) :
    Mirrors SameContent task task := fun s t h =>
  ⟨hcongr s t h, Trans.trans (hmoves s).symm (Trans.trans h (hmoves t))⟩

/-- Whether a question is about a file in a region. -/
def Question.StaysIn (K : Region) : Question → Prop
  | .exists? p (some .file) => K p.parts = true
  | .read p => K p.parts = true
  | _ => False

instance (K : Region) : (q : Question) → Decidable (q.StaysIn K)
  | .exists? _ (some .file) | .read _ => inferInstanceAs (Decidable (_ = true))
  | .exists? _ none | .exists? _ (some .directory) | .children _ | .files .. | .dirs .. =>
    inferInstanceAs (Decidable False)

theorem listFiles_memory (dir : Path) (pattern : String) (m : Memory) :
    (listFiles dir pattern (.memory m)).1 = (compile pattern).bind (m.listFiles dir) := by
  rw [listFiles, bind_apply]
  cases Store.compile pattern <;> rfl

theorem of_mem_listFiles {dir p : Path} {pattern : String} {files : List Path}
    (h : (listFiles dir pattern (.memory m)).1 = .ok files) (hp : p ∈ files) :
    ∃ pieces, compile pattern = .ok pieces ∧ p.isWithin dir = true ∧
      nameAdmitted pieces p = true := by
  rw [listFiles_memory] at h
  obtain ⟨pieces, hpieces, h⟩ := Except.exists_of_bind_ok h
  unfold Memory.listFiles at h
  split at h <;> cases h
  exact ⟨pieces, hpieces, Bool.and_eq_true_iff.1 (List.mem_filter.1 hp).2⟩

section Learnt
variable {m' : Memory} (hK : m'.filesIn K = m.filesIn K)
include hK

theorem mirrors_isFile {p : Path} (hp : K p.parts = true) :
    Mirrors (Beside (.memory m) (.memory m')) (isFile p) (isFile p) := by
  refine mirrors_beside (moves_isFile p)
    (fun s t h => answer_congr h (.exists? p (some .file))) ?_
  rw [isFile_memory, isFile_memory, isFile_congr (Memory.get?_of_filesIn hK hp).symm]

theorem read_of_filesIn {p : Path} (hp : K p.parts = true) :
    (read p (.memory m)).1 = (read p (.memory m')).1 :=
  content?_congr (Memory.get?_of_filesIn hK hp).symm

theorem mirrors_readText {p : Path} (hp : K p.parts = true) :
    Mirrors (Beside (.memory m) (.memory m')) (readText p) (readText p) := by
  refine mirrors_beside (moves_readText p) (fun s t h => readText_congr h p) ?_
  rw [readText_apply, readText_apply, read_of_filesIn hK hp]

theorem mirrors_answer {q : Question} (hq : q.StaysIn K) :
    Mirrors (Beside (.memory m) (.memory m')) (answer q) (answer q) := by
  cases q with
  | exists? p kind =>
    rcases kind with _ | ⟨_ | _⟩
    · exact hq.elim
    · exact mirrors_isFile hK hq
    · exact hq.elim
  | read p =>
    exact mirrors_beside (moves_read p) (fun s t h => answer_congr h (.read p))
      (read_of_filesIn hK hq)
  | children | files | dirs => exact hq.elim

/-- What is listed of a directory, if all that is listed is in the region. -/
theorem mirrors_listFiles {dir : Path} {pattern : String} (hdir : m'.isDir dir = m.isDir dir)
    (hlisted : ∀ pieces, compile pattern = .ok pieces → ∀ p : Path, p.isWithin dir = true →
      nameAdmitted pieces p = true → K p.parts = true) :
    Mirrors (Beside (.memory m) (.memory m')) (listFiles dir pattern) (listFiles dir pattern) := by
  refine mirrors_beside (moves_listFiles dir pattern)
    (fun s t h => answer_congr h (.files dir pattern)) ?_
  rw [listFiles_memory, listFiles_memory]
  cases hpieces : compile pattern with
  | error e => rfl
  | ok pieces =>
    have hkeys (m : Memory) :
        (PathMap.keys m.files).filter (fun p => p.isWithin dir && nameAdmitted pieces p)
          = ((m.filesIn K).map (·.1)).filter fun p => p.isWithin dir && nameAdmitted pieces p := by
      rw [Memory.filesIn, PathMap.keys, List.filter_map, List.filter_map, List.filter_filter]
      refine congrArg _ (List.filter_congr fun e _ => ?_)
      have hin := hlisted pieces hpieces e.1
      cases hwithin : e.1.isWithin dir <;> cases hadmitted : nameAdmitted pieces e.1 <;>
        simp_all
    simp only [Except.bind, Memory.listFiles, hkeys, hK, hdir]

end Learnt

end AgentDocs.Store
