import AgentDocs.Proofs.Store.Entries
import AgentDocs.Proofs.Store.Files
import Mathlib.Logic.Relation

/-! # Where a store is changed

A task is confined if every file that it writes or removes, and every directory that it removes,
is at a path of which `File` or `Dir` holds. Directories may be created anywhere. Of such a task it
is known what it leaves untouched, on a disk as in memory. -/
namespace AgentDocs.Store
open Effect

/-- One operation on a store, whether it fails or not. -/
inductive Step (File Dir : Path → Prop) : Store → Store → Prop
  | look {s t : Store} : SameContent s t → Step File Dir s t
  | createDirs (p : Path) (s : Store) : Step File Dir s (createDirs p s).2
  | write {p : Path} (content : Content) (s : Store) :
    File p → Step File Dir s (write p content s).2
  | remove {p : Path} (s : Store) : File p → Step File Dir s (remove p s).2
  | removeDir {p : Path} (s : Store) : Dir p → Step File Dir s (removeDir p s).2

/-- Any number of operations. -/
def Confined (File Dir : Path → Prop) : Store → Store → Prop :=
  Relation.ReflTransGen (Step File Dir)

variable {File Dir : Path → Prop}

instance : Std.Refl (Confined File Dir) where
  refl _ := .refl

instance : Trans (Confined File Dir) (Confined File Dir) (Confined File Dir) where
  trans := Relation.ReflTransGen.trans

theorem SameContent.confined {s t : Store} (h : SameContent s t) : Confined File Dir s t :=
  .single (.look h)

theorem confined_isFile (p : Path) : Moves (Confined File Dir) (isFile p) :=
  fun s => (moves_isFile p s).confined

theorem confined_isDir (p : Path) : Moves (Confined File Dir) (isDir p) :=
  fun s => (moves_isDir p s).confined

theorem confined_isEmptyDir (p : Path) : Moves (Confined File Dir) (isEmptyDir p) :=
  Moves.bind (fun s => (moves_children p s).confined) fun _ => moves_pure _

theorem confined_createDirs (p : Path) : Moves (Confined File Dir) (createDirs p) :=
  fun s => .single (.createDirs p s)

theorem confined_writeText {p : Path} (hp : File p) (text : String) :
    Moves (Confined File Dir) (writeText p text) := fun s => .single (.write _ s hp)

theorem confined_remove {p : Path} (hp : File p) : Moves (Confined File Dir) (remove p) :=
  fun s => .single (.remove s hp)

theorem confined_removeDir {p : Path} (hp : Dir p) : Moves (Confined File Dir) (removeDir p) :=
  fun s => .single (.removeDir s hp)

/-! ## What is at a place -/

def contentAt (p : Path) : Store → Option Content
  | .memory m => PathMap.get? p m.files
  | .disk d => match d.entry? (placeOn p) with
    | some (.file content) => some content
    | _ => none

def dirAt (p : Path) : Store → Bool
  | .memory m => m.isDir p
  | .disk d => d.entry? (placeOn p) == some .directory

/-- What is as it was outside of the paths of which `File` and `Dir` hold. -/
structure Untouched (File Dir : Path → Prop) (s t : Store) : Prop where
  files : ∀ p, p.Rooted → (∀ q, File q → q.parts ≠ p.parts) → contentAt p t = contentAt p s
  dirs : ∀ p, p.Rooted → (∀ q, Dir q → q.parts ≠ p.parts) → dirAt p s = true → dirAt p t = true

instance : Std.Refl (Untouched File Dir) where
  refl _ := ⟨fun _ _ _ => rfl, fun _ _ _ => id⟩

instance : Trans (Untouched File Dir) (Untouched File Dir) (Untouched File Dir) where
  trans hab hbc :=
    ⟨fun p hr hp => (hbc.files p hr hp).trans (hab.files p hr hp),
      fun p hr hp => hbc.dirs p hr hp ∘ hab.dirs p hr hp⟩

theorem SameContent.untouched {s t : Store} (h : SameContent s t) : Untouched File Dir s t := by
  cases s with
  | memory m =>
    obtain ⟨m', rfl, hfiles, hdirs⟩ := h.memory
    exact ⟨fun p _ _ => by simp only [contentAt, hfiles],
      fun p _ _ hp => by simpa only [dirAt, Memory.isDir, hdirs] using hp⟩
  | disk d =>
    cases t with
    | memory m => exact h.elim
    | disk d' =>
      cases h
      exact Std.Refl.refl _

/-! ## Operations leave the rest untouched -/

theorem Disk.AddsDirs.untouched {d d' : Disk} (h : d.AddsDirs d') :
    Untouched File Dir (.disk d) (.disk d') where
  files p _ _ := by
    rcases h (placeOn p) with he | ⟨hnone, hdir⟩
    · simp only [contentAt, he]
    · simp only [contentAt, hnone, hdir]
  dirs p _ _ hp := by
    rcases h (placeOn p) with he | ⟨_, hdir⟩
    · simpa only [dirAt, he] using hp
    · simp [dirAt, hdir]

theorem untouched_createDirs (p : Path) (s : Store) : Untouched File Dir s (createDirs p s).2 := by
  cases s with
  | disk d => exact (Disk.addsDirs_createFrom d p.ancestors).untouched
  | memory m =>
    have hadd : Untouched File Dir (.memory m) (.memory (m.addDirs p)) :=
      ⟨fun _ _ _ => rfl, fun _ _ _ => Memory.isDir_addDirs⟩
    simp only [createDirs, change, Memory.createDir]
    split
    · rename_i m' hm
      split at hm
      · split at hm <;> cases hm
        exact hadd
      · cases hm
        exact hadd
    · exact Std.Refl.refl _

theorem untouched_write {p : Path} (hfile : File p) (hp : p.Rooted) (content : Content)
    (s : Store) : Untouched File Dir s (write p content s).2 := by
  cases s with
  | memory m =>
    simp only [write, change]
    split
    · rename_i m' hm
      obtain ⟨_, _, _, rfl⟩ := Memory.eq_of_write hm
      exact ⟨fun q _ hq => PathMap.get?_insert_of_ne (hq p hfile) _ _, fun _ _ _ => id⟩
    · exact Std.Refl.refl _
  | disk d =>
    simp only [write, change]
    split
    · rename_i d' hd
      obtain ⟨place, hnames, hdir, rfl⟩ := Disk.names_of_write hd
      obtain rfl := hnames.eq_placeOn hp
      have hne := hnames.ne_nil
      refine ⟨fun q hq hother => ?_, fun q hq _ hdirq => ?_⟩
      · have hplace : placeOn p ≠ placeOn q := fun he => hother p hfile (placeOn_injective hp hq he)
        simp only [contentAt, Disk.entry?_set hne, if_neg hplace]
      · have hplace : placeOn p ≠ placeOn q := fun he =>
          hdir (by simpa [dirAt, he] using hdirq)
        simpa only [dirAt, Disk.entry?_set hne, if_neg hplace] using hdirq
    · exact Std.Refl.refl _

theorem untouched_remove {p : Path} (hfile : File p) (hp : p.Rooted) (s : Store) :
    Untouched File Dir s (remove p s).2 := by
  cases s with
  | memory m =>
    simp only [remove, change]
    split
    · rename_i m' hm
      obtain rfl := Memory.eq_of_remove hm
      refine ⟨fun q _ hq => ?_, fun _ _ _ => id⟩
      exact (PathMap.get?_erase _ _ _).trans (if_neg (hq p hfile))
    · exact Std.Refl.refl _
  | disk d =>
    simp only [remove, change]
    split
    · rename_i d' hd
      obtain ⟨place, hnames, hdir, rfl⟩ := Disk.names_of_remove hd
      obtain rfl := hnames.eq_placeOn hp
      have hne := hnames.ne_nil
      refine ⟨fun q hq hother => ?_, fun q hq _ hdirq => ?_⟩
      · have hplace : placeOn p ≠ placeOn q := fun he => hother p hfile (placeOn_injective hp hq he)
        simp only [contentAt, Disk.entry?_erase hne, if_neg hplace]
      · have hplace : placeOn p ≠ placeOn q := fun he =>
          hdir (by simpa [dirAt, he] using hdirq)
        simpa only [dirAt, Disk.entry?_erase hne, if_neg hplace] using hdirq
    · exact Std.Refl.refl _

theorem untouched_removeDir {p : Path} (hdir : Dir p) (hp : p.Rooted) (s : Store) :
    Untouched File Dir s (removeDir p s).2 := by
  cases s with
  | memory m =>
    simp only [removeDir, change]
    split
    · rename_i m' hm
      obtain rfl := Memory.eq_of_removeDir hm
      refine ⟨fun _ _ _ => rfl, fun q _ hq hdirq => ?_⟩
      have hkept : PathMap.get? q (PathMap.erase p m.dirs) = PathMap.get? q m.dirs :=
        (PathMap.get?_erase _ _ _).trans (if_neg (hq p hdir))
      simpa only [dirAt, Memory.isDir, PathMap.has, hkept] using hdirq
    · exact Std.Refl.refl _
  | disk d =>
    simp only [removeDir, change]
    split
    · rename_i d' hd
      obtain ⟨place, hnames, hentry, rfl⟩ := Disk.names_of_removeDir hd
      obtain rfl := hnames.eq_placeOn hp
      have hne := hnames.ne_nil
      refine ⟨fun q hq _ => ?_, fun q hq hother hdirq => ?_⟩
      · by_cases hplace : placeOn p = placeOn q
        · simp only [contentAt, Disk.entry?_erase hne, ← hplace, hentry, if_true]
        · simp only [contentAt, Disk.entry?_erase hne, if_neg hplace]
      · have hplace : placeOn p ≠ placeOn q := fun he => hother p hdir (placeOn_injective hp hq he)
        simpa only [dirAt, Disk.entry?_erase hne, if_neg hplace] using hdirq
    · exact Std.Refl.refl _

theorem Step.untouched {s t : Store} (h : Step File Dir s t) (hfile : ∀ p, File p → p.Rooted)
    (hdir : ∀ p, Dir p → p.Rooted) : Untouched File Dir s t := by
  cases h with
  | look h => exact h.untouched
  | createDirs p s => exact untouched_createDirs p s
  | write content s hp => exact untouched_write hp (hfile _ hp) content s
  | remove s hp => exact untouched_remove hp (hfile _ hp) s
  | removeDir s hp => exact untouched_removeDir hp (hdir _ hp) s

/-- What any number of operations leave untouched, if all paths lead from the root. -/
theorem Confined.untouched {s t : Store} (h : Confined File Dir s t)
    (hfile : ∀ p, File p → p.Rooted) (hdir : ∀ p, Dir p → p.Rooted) :
    Untouched File Dir s t := by
  induction h with
  | refl => exact Std.Refl.refl _
  | tail _ hstep ih => exact Trans.trans ih (hstep.untouched hfile hdir)

end AgentDocs.Store
