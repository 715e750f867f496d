import AgentDocs.Proofs.Path.Map
import AgentDocs.Proofs.Store.Content

/-! # Files of a store in memory

Creating and removing directories changes no file; a file that is written or removed changes at
its own place only. -/
namespace AgentDocs.Store
open Effect

/-! ## What an operation makes of a memory -/

namespace Memory
variable {m m' : Memory} {p : Path}

/-- A file is written into a directory. -/
theorem eq_of_write {content : Content} (h : m.write p content = .ok m') :
    ∃ dir, p.parent? = some dir ∧ m.isDir dir = true ∧ m' = m.setFile p content := by
  unfold write at h
  split at h
  · cases h
  · rename_i dir hparent
    split at h <;> cases h
    rename_i hdir
    exact ⟨dir, hparent, hdir, rfl⟩

theorem eq_of_remove (h : m.remove p = .ok m') :
    m' = { m with files := PathMap.erase p m.files } := by
  unfold remove at h
  split at h <;> cases h
  rfl

theorem eq_of_createDir {nested : Bool} (h : m.createDir p nested = .ok m') :
    m' = m.addDirs p := by
  unfold createDir at h
  split at h
  · split at h <;> cases h
    rfl
  · cases h
    rfl

theorem eq_of_removeDir (h : m.removeDir p = .ok m') :
    m' = { m with dirs := PathMap.erase p m.dirs } := by
  unfold removeDir at h
  split at h
  · cases h
  · split at h <;> cases h
    rfl

/-- A directory is removed if nothing is right inside of it. -/
theorem isEmpty_of_removeDir (h : m.removeDir p = .ok m') :
    m.isDir p = true ∧ (m.childrenOf p).isEmpty = true := by
  unfold removeDir at h
  split at h
  · cases h
  · rename_i hdir
    split at h
    · rename_i hempty
      exact ⟨by simpa using hdir, hempty⟩
    · cases h

end Memory

/-- Whether two stores in memory have the same files. Stores on disks are not told apart. -/
def SameFiles : Store → Store → Prop
  | .memory a, .memory b => a.files = b.files
  | .disk _, .disk _ => True
  | _, _ => False

instance : Std.Refl SameFiles where
  refl s := by cases s <;> simp [SameFiles]

instance : Trans SameFiles SameFiles SameFiles where
  trans {a b c} hab hbc := by
    cases a <;> cases b <;> cases c <;> simp_all [SameFiles]

theorem SameFiles.memory {m : Memory} {s : Store} (h : SameFiles (.memory m) s) :
    ∃ m', s = .memory m' ∧ m'.files = m.files := by
  cases s with
  | memory m' => exact ⟨m', rfl, h.symm⟩
  | disk d => exact h.elim

theorem SameContent.sameFiles {a b : Store} (h : SameContent a b) : SameFiles a b := by
  cases a <;> cases b <;> simp_all [SameContent, SameFiles]

theorem files_of_moves {α ε : Type} {task : Task ε α} (h : Moves SameFiles task) {m : Memory}
    {result : Except ε α} {t : Store} (ht : task (.memory m) = (result, t)) :
    ∃ m', t = .memory m' ∧ m'.files = m.files := by
  have hs := h (.memory m)
  rw [ht] at hs
  exact hs.memory

/-! ## Directories -/

theorem sameFiles_isDir (p : Path) : Moves SameFiles (isDir p) :=
  fun s => (moves_isDir p s).sameFiles

theorem sameFiles_isEmptyDir (p : Path) : Moves SameFiles (isEmptyDir p) :=
  Moves.bind (fun s => (moves_children p s).sameFiles) fun _ => moves_pure _

theorem sameFiles_change {p : Path} {f : Memory → Except Error Memory}
    {g : Disk → Except Fault Disk} (h : ∀ m m', f m = .ok m' → m'.files = m.files) :
    Moves SameFiles (change p f g) := by
  intro s
  cases s with
  | memory m =>
    simp only [change]
    split
    · rename_i m' hm
      exact (h m m' hm).symm
    · exact Std.Refl.refl (r := SameFiles) _
  | disk d =>
    simp only [change]
    split <;> exact trivial

theorem sameFiles_createDirs (p : Path) : Moves SameFiles (createDirs p) := by
  intro s
  cases s with
  | memory m =>
    refine sameFiles_change (fun m m' h => ?_) (.memory m)
    rw [Memory.eq_of_createDir h]
    rfl
  | disk d => exact trivial

theorem sameFiles_removeDir (p : Path) : Moves SameFiles (removeDir p) := by
  refine sameFiles_change fun m m' h => ?_
  rw [Memory.eq_of_removeDir h]

theorem Memory.isDir_congr {m m' : Memory} (h : m'.dirs = m.dirs) : m'.isDir = m.isDir := by
  funext p
  rw [isDir, h, isDir]

theorem Memory.isDir_addDirs {m : Memory} {p q : Path} (h : m.isDir q = true) :
    (m.addDirs p).isDir q = true := PathMap.has_foldl_insert h

theorem Memory.isDir_addDirs_self (m : Memory) {p : Path} (h : p.text ≠ "") :
    (m.addDirs p).isDir p = true := by
  have htake : p.ancestors.takeWhile (fun dir => !dir.text.isEmpty)
      = p :: p.ancestors.tail.takeWhile fun dir => !dir.text.isEmpty := by
    rw [Path.ancestors, List.takeWhile_cons_of_pos (by simpa using h)]
    rfl
  rw [isDir, addDirs, htake, List.foldl_cons]
  exact PathMap.has_foldl_insert (PathMap.has_insert_self p () m.dirs)

/-! ## One file -/

/-- A file that was written is there, and all others are as they were. -/
theorem files_of_writeText {p : Path} {text : String} {m : Memory} {t : Store}
    (h : writeText p text (.memory m) = (.ok (), t)) :
    ∃ m', t = .memory m' ∧ m'.files = PathMap.insert p (.text text) m.files := by
  simp only [writeText, write, change] at h
  split at h
  · rename_i m' hm
    obtain ⟨_, _, _, rfl⟩ := Memory.eq_of_write hm
    cases h
    exact ⟨_, rfl, rfl⟩
  · cases h

theorem isFile_memory (p : Path) (m : Memory) :
    isFile p (.memory m) = (.ok (m.isFile p), .memory m) := rfl

theorem isFile_iff {m : Memory} {p : Path} :
    m.isFile p = true ↔ ∃ content, PathMap.get? p m.files = some content := PathMap.has_iff

theorem isFile_congr {m m' : Memory} {p q : Path}
    (h : PathMap.get? p m.files = PathMap.get? q m'.files) : m.isFile p = m'.isFile q := by
  rw [Memory.isFile, Memory.isFile, PathMap.has, PathMap.has, h]

theorem content?_eq_ok_iff {m : Memory} {p : Path} {content : Content} :
    m.content? p = .ok content ↔ PathMap.get? p m.files = some content := by
  unfold Memory.content?
  split <;> simp_all

theorem content?_congr {m m' : Memory} {p : Path}
    (h : PathMap.get? p m.files = PathMap.get? p m'.files) : m.content? p = m'.content? p := by
  rw [Memory.content?, Memory.content?, h]

end AgentDocs.Store
