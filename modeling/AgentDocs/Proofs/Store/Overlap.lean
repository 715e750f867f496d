import AgentDocs.Proofs.Store.Tree
import Mathlib.Data.List.Induction
import Mathlib.Data.List.Infix

/-! # A file and a directory at one path

On a disk a path leads to a file or to a directory. A store in memory keeps the two apart and
compares them nowhere, so that a path can become both. This happens with exactly those operations
that a disk refuses: a file is put or written over a directory, or a directory is created at or
inside of a file. -/
namespace AgentDocs.Store
open Effect

/-- What a path leads to on a disk is of one kind. -/
theorem Disk.isDir_eq_false {d : Disk} {p : Path} (h : d.exists? p (some .file) = .ok true) :
    d.exists? p (some .directory) = .ok false := by
  unfold Disk.exists? at h ⊢
  split at h
  · rfl
  · cases h
  · cases h
  · cases h

namespace Memory
variable {m : Memory} {p dir : Path}

/-- Whether no path is a file and a directory at once. -/
def Unmixed (m : Memory) : Prop := ∀ p, m.isFile p = true → m.isDir p = false

theorem unmixed_setFile_iff {content : Content} :
    (m.setFile p content).Unmixed ↔ m.Unmixed ∧ m.isDir p = false := by
  constructor
  · intro h
    exact ⟨fun q hq => h q (isFile_setFile.2 (.inr hq)), h p (isFile_setFile.2 (.inl rfl))⟩
  · rintro ⟨h, hp⟩ q hq
    show m.isDir q = false
    rcases isFile_setFile.1 hq with hparts | hq
    · rw [← isDir_of_parts hparts, hp]
    · exact h q hq

theorem unmixed_addDirs_iff (habs : p.isAbsolute = true) :
    (m.addDirs p).Unmixed ↔ m.Unmixed ∧ ∀ dir ∈ p.ancestors, m.isFile dir = false := by
  have hunmixed : (m.addDirs p).Unmixed ↔ ∀ q, m.isFile q = true →
      ¬(m.isDir q = true ∨ ∃ dir ∈ p.ancestors, dir.parts = q.parts) := by
    refine forall_congr' fun q => imp_congr_right fun _ => ?_
    rw [← isDir_addDirs_iff habs, Bool.not_eq_true]
  rw [hunmixed]
  constructor
  · intro h
    refine ⟨fun q hq => Bool.eq_false_iff.2 fun hdir => h q hq (.inl hdir), fun dir hdir => ?_⟩
    exact Bool.eq_false_iff.2 fun hfile => h dir hfile (.inr ⟨dir, hdir, rfl⟩)
  · rintro ⟨h, haround⟩ q hq (hdir | ⟨dir, hdir, hparts⟩)
    · rw [h q hq] at hdir
      cases hdir
    · rw [← isFile_of_parts hparts, haround dir hdir] at hq
      cases hq

theorem unmixed_put_iff (habs : p.isAbsolute = true) {content : Content} :
    (m.put p content).Unmixed ↔ m.Unmixed ∧ m.isDir p = false ∧
      ∀ around, p.parent? = some around → ∀ dir ∈ around.ancestors, m.isFile dir = false := by
  unfold Memory.put
  split
  · rename_i around haround
    have hround := Path.isAbsolute_parent? habs haround
    have hself : (m.addDirs around).isDir p = m.isDir p := by
      -- a path has one part more than the directory around it
      rw [Bool.eq_iff_iff, isDir_addDirs_iff hround, Path.exists_mem_ancestors_iff hround]
      refine or_iff_left fun ⟨_, hpre⟩ => ?_
      obtain ⟨part, hparts⟩ := Path.parts_parent? haround
      have hlength := hpre.length_le
      rw [hparts, List.length_append, List.length_singleton] at hlength
      omega
    rw [unmixed_setFile_iff, unmixed_addDirs_iff hround, hself]
    simp only [haround, Option.some.injEq, forall_eq']
    exact and_assoc.trans (and_congr_right fun _ => and_comm)
  · rename_i hnone
    rw [unmixed_setFile_iff]
    simp [hnone]

end Memory

namespace Operation
variable {op : Operation} {m : Memory} {ops : List Operation}

/-- Whether an operation makes a file where a directory is, or a directory where a file is. -/
def clashes (m : Memory) : Operation → Bool
  | put p _ => m.isDir p || p.parent?.any fun around => around.ancestors.any m.isFile
  | write p _ => p.parent?.isSome && m.isDir p
  | createDir p true => p.ancestors.any m.isFile
  | createDir p false => m.isFile p
  | remove _ | removeDir _ => false

theorem unmixed_put_iff (hu : m.Unmixed) {p : Path} (habs : p.isAbsolute = true)
    {content : Content} :
    ((put p content).after m).Unmixed ↔ (put p content).clashes m = false := by
  show (m.put p content).Unmixed ↔
    (m.isDir p || p.parent?.any fun around => around.ancestors.any m.isFile) = false
  rw [Memory.unmixed_put_iff habs, Bool.or_eq_false_iff, Option.any_eq_false]
  simp only [hu, true_and, List.any_eq_false, Bool.not_eq_true]

theorem unmixed_write_iff (h : m.Closed) (hu : m.Unmixed) {p : Path} {content : Content} :
    ((write p content).after m).Unmixed ↔ (write p content).clashes m = false := by
  show ((write p content).after m).Unmixed ↔ (p.parent?.isSome && m.isDir p) = false
  simp only [after, on, Memory.write]
  cases hparent : p.parent? with
  | none => exact iff_of_true hu rfl
  | some dir =>
    rw [Option.isSome_some, Bool.true_and]
    by_cases hdir : m.isDir dir = true
    · simp only [if_pos hdir, Memory.unmixed_setFile_iff, hu, true_and]
    · have hp : m.isDir p = false := Bool.eq_false_iff.2 fun hp => hdir (h p dir (.inr hp) hparent)
      simp only [if_neg hdir]
      exact iff_of_true hu hp

theorem unmixed_createDirs_iff (hu : m.Unmixed) {p : Path} (habs : p.isAbsolute = true) :
    ((createDir p true).after m).Unmixed ↔ (createDir p true).clashes m = false := by
  have hafter : (createDir p true).after m = m.addDirs p := by
    simp only [after, on, Memory.createDir]
    cases p.parent? <;> rfl
  show ((createDir p true).after m).Unmixed ↔ p.ancestors.any m.isFile = false
  rw [hafter, Memory.unmixed_addDirs_iff habs, List.any_eq_false]
  simp only [hu, true_and, Bool.not_eq_true]

theorem unmixed_createDir_iff (h : m.Closed) (hu : m.Unmixed) {p : Path}
    (habs : p.isAbsolute = true) :
    ((createDir p false).after m).Unmixed ↔ (createDir p false).clashes m = false := by
  show ((createDir p false).after m).Unmixed ↔ m.isFile p = false
  -- the directories further out are there already, and are no files
  have hadded (hfound : ∀ around, p.parent? = some around → m.isDir around = true) :
      (m.addDirs p).Unmixed ↔ m.isFile p = false := by
    rw [Memory.unmixed_addDirs_iff habs]
    refine ⟨fun hall => hall.2 p (Path.mem_ancestors.2 (.inl rfl)), fun hp => ⟨hu, ?_⟩⟩
    intro dir hdir
    by_cases hsame : dir.parts = p.parts
    · rw [Memory.isFile_of_parts hsame, hp]
    · obtain ⟨around, haround, hpre⟩ := Path.exists_parent?_of_mem_ancestors habs hdir hsame
      have hne := ((Path.exists_mem_ancestors_iff habs).1 ⟨dir, hdir, rfl⟩).1
      have hisDir := h.of_prefix (Path.isAbsolute_parent? habs haround) (hfound around haround)
        hne hpre
      refine Bool.eq_false_iff.2 ?_
      intro hfile
      cases (hu dir hfile).symm.trans hisDir
  simp only [after, on, Memory.createDir]
  cases hparent : p.parent? with
  | none =>
    refine hadded ?_
    intro around haround
    cases hparent.symm.trans haround
  | some around =>
    by_cases hdir : m.isDir around = true
    · simp only [Bool.false_or, if_pos hdir]
      refine hadded ?_
      intro d hd
      rwa [← Option.some.inj (hparent.symm.trans hd)]
    · have hp : m.isFile p = false :=
        Bool.eq_false_iff.2 fun hp => hdir (h p around (.inl hp) hparent)
      simp only [Bool.false_or, if_neg hdir]
      exact iff_of_true hu hp

/-- What removes something makes no such path. -/
theorem unmixed_of_removal (hu : m.Unmixed) (hop : ∀ m', op.on m = .ok m' →
    ∀ q, (m'.isFile q = true → m.isFile q = true) ∧ (m'.isDir q = true → m.isDir q = true)) :
    (op.after m).Unmixed := by
  unfold after
  cases h : op.on m with
  | error e => exact hu
  | ok m' =>
    intro q hq
    obtain ⟨hfile, hdir⟩ := hop m' h q
    exact Bool.eq_false_iff.2 fun hd => nomatch (hu q (hfile hq)).symm.trans (hdir hd)

/-- A step from a tree without such a path leaves none, unless it clashes. -/
theorem unmixed_after_iff (h : m.Closed) (hu : m.Unmixed) (habs : op.path.isAbsolute = true) :
    (op.after m).Unmixed ↔ op.clashes m = false := by
  cases op with
  | put p content => exact unmixed_put_iff hu habs
  | write p content => exact unmixed_write_iff h hu
  | remove p =>
    refine iff_of_true (unmixed_of_removal hu fun m' hop q => ?_) rfl
    rw [Memory.eq_of_remove hop]
    exact ⟨fun hq => ((PathMap.has_erase p q m.files).1 hq).2, id⟩
  | createDir p nested =>
    cases nested with
    | false => exact unmixed_createDir_iff h hu habs
    | true => exact unmixed_createDirs_iff hu habs
  | removeDir p =>
    refine iff_of_true (unmixed_of_removal hu fun m' hop q => ?_) rfl
    rw [Memory.eq_of_removeDir hop]
    exact ⟨id, fun hq => ((PathMap.has_erase p q m.dirs).1 hq).2⟩

/-! ## Operations one after the other -/

/-- What some operations make of a memory. -/
def reached (ops : List Operation) (m : Memory) : Memory := ops.foldl (fun m op => op.after m) m

theorem runAll_memory (ops : List Operation) (m : Memory) :
    runAll ops (.memory m) = .memory (reached ops m) := by
  induction ops generalizing m with
  | nil => rfl
  | cons op ops ih =>
    show runAll ops (op.run (.memory m)).2 = .memory (reached ops (op.after m))
    rw [run_memory, ih]

theorem closed_reached (habs : ∀ op ∈ ops, op.path.isAbsolute = true) (h : m.Closed) :
    (reached ops m).Closed := by
  obtain ⟨m', hm', hclosed⟩ := closed_runAll habs h
  rw [runAll_memory] at hm'
  cases hm'
  exact hclosed

theorem reached_concat (ops : List Operation) (op : Operation) (m : Memory) :
    reached (ops ++ [op]) m = op.after (reached ops m) := by
  simp only [reached, List.foldl_append, List.foldl_cons, List.foldl_nil]

theorem unmixed_reached_iff (habs : ∀ op ∈ ops, op.path.isAbsolute = true) (h : m.Closed)
    (hu : m.Unmixed) :
    (∀ before, before <+: ops → (reached before m).Unmixed) ↔
      ∀ before op, before ++ [op] <+: ops → op.clashes (reached before m) = false := by
  have hstep {before : List Operation} {op : Operation} (hfront : before ++ [op] <+: ops)
      (hbefore : (reached before m).Unmixed) :
      (reached (before ++ [op]) m).Unmixed ↔ op.clashes (reached before m) = false := by
    have hmem := hfront.subset
    have hclosed : (reached before m).Closed :=
      closed_reached (fun o ho => habs o (hmem (List.mem_append_left _ ho))) h
    have hop := habs op (hmem (List.mem_append_right _ List.mem_cons_self))
    rw [reached_concat]
    exact unmixed_after_iff hclosed hbefore hop
  constructor
  · intro hall before op hfront
    exact (hstep hfront (hall before ((List.prefix_append _ _).trans hfront))).1 (hall _ hfront)
  · intro hnone before hfront
    induction before using List.reverseRecOn with
    | nil => exact hu
    | append_singleton before op ih =>
      exact (hstep hfront (ih ((List.prefix_append _ _).trans hfront))).2 (hnone before op hfront)

/-- From an empty memory on, no path becomes a file and a directory exactly if no operation makes
a file where a directory is, or a directory where a file is. -/
theorem unmixed_iff_of_operations (habs : ∀ op ∈ ops, op.path.isAbsolute = true) :
    (∀ before, before <+: ops →
        ∃ m, runAll before (.memory .empty) = .memory m ∧ m.Unmixed) ↔
      ∀ before op, before ++ [op] <+: ops →
        ∃ m, runAll before (.memory .empty) = .memory m ∧ op.clashes m = false := by
  have hempty : Memory.Unmixed .empty := fun p hp => nomatch hp
  have hiff := unmixed_reached_iff habs Memory.closed_empty hempty
  simpa only [runAll_memory, Store.memory.injEq, exists_eq_left'] using hiff

/-- A file makes room for a directory. -/
def tidyOperations : List Operation :=
  [.put ⟨"/work/a"⟩ (.text "x"), .createDir ⟨"/work/b"⟩ false, .remove ⟨"/work/a"⟩,
    .createDir ⟨"/work/a"⟩ false, .write ⟨"/work/a/c"⟩ (.text "y")]

theorem unmixed_tidyOperations :
    (∀ op ∈ tidyOperations, op.path.isAbsolute = true) ∧ ∀ before, before <+: tidyOperations →
      ∃ m, runAll before (.memory .empty) = .memory m ∧ m.Unmixed := by
  have habs : ∀ op ∈ tidyOperations, op.path.isAbsolute = true := by decide +kernel
  have hnone : ∀ before ∈ tidyOperations.inits, ∀ op ∈ tidyOperations,
      before ++ [op] <+: tidyOperations → op.clashes (reached before .empty) = false := by
    decide +kernel
  refine ⟨habs, (unmixed_iff_of_operations habs).2 fun before op hfront => ?_⟩
  have hbefore := (List.prefix_append before [op]).trans hfront
  have hop := hfront.subset (List.mem_append_right before List.mem_cons_self)
  exact ⟨_, runAll_memory before .empty,
    hnone before ((List.mem_inits _ _).2 hbefore) op hop hfront⟩

/-- A directory over a file, a file over a directory, and a file below a file. -/
def mixedUp : List (List Operation) :=
  [[.put ⟨"/work/a"⟩ (.text "x"), .createDir ⟨"/work/a"⟩ true],
    [.createDir ⟨"/work/a"⟩ true, .write ⟨"/work/a"⟩ (.text "x")],
    [.put ⟨"/work/a"⟩ (.text "x"), .put ⟨"/work/a/b"⟩ (.text "y")]]

/-- Each of these leaves a path that is a file and a directory. -/
theorem file_and_directory :
    (mixedUp.map fun ops => ops.all fun op => op.path.isAbsolute) = [true, true, true] ∧
      (mixedUp.map fun ops => (Store.isFile ⟨"/work/a"⟩ (runAll ops (.memory .empty))).1)
        = [.ok true, .ok true, .ok true] ∧
      (mixedUp.map fun ops => (Store.isDir ⟨"/work/a"⟩ (runAll ops (.memory .empty))).1)
        = [.ok true, .ok true, .ok true] := by
  decide +kernel

end Operation
end AgentDocs.Store
