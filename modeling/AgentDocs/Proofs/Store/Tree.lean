import AgentDocs.Proofs.Path.Outward
import AgentDocs.Proofs.Store.Files
import Mathlib.Data.List.TakeWhile

/-! # A store in memory is a tree

Files and directories are kept apart, each with its own path. What holds them together is that the
directory around everything there is is there too. Every operation on paths from the root keeps
this, so that a directory without anything right inside of it has nothing inside of it at all. -/
namespace AgentDocs.Store
open Effect

namespace Memory
variable {m m' : Memory} {p q dir : Path}

/-- Whether there is a file or a directory at a path. -/
def Holds (m : Memory) (p : Path) : Prop := m.isFile p = true ∨ m.isDir p = true

/-- Whether the directory around everything there is is there. -/
def Closed (m : Memory) : Prop := ∀ p dir, m.Holds p → p.parent? = some dir → m.isDir dir = true

theorem isFile_of_parts (h : p.parts = q.parts) : m.isFile p = m.isFile q := PathMap.has_congr h _

theorem isDir_of_parts (h : p.parts = q.parts) : m.isDir p = m.isDir q := PathMap.has_congr h _

theorem Holds.of_parts (h : m.Holds p) (hparts : p.parts = q.parts) : m.Holds q := by
  rwa [Holds, ← isFile_of_parts hparts, ← isDir_of_parts hparts]

/-! ## What stands around -/

theorem Closed.around (h : m.Closed) (hdir : dir.isAbsolute = true) {part : Part}
    (hparts : p.parts = dir.parts ++ [part]) (hp : m.Holds p) : m.isDir dir = true := by
  obtain ⟨d, hd, hsame⟩ := (Path.exists_parent?_iff hdir).2 ⟨part, hparts⟩
  rw [← isDir_of_parts hsame]
  exact h p d hp hd

/-- All directories around what there is are there, out to the root. -/
theorem Closed.outwards (h : m.Closed) {ps : List Part} {dirs : List Path}
    (hout : Path.Outwards ps dirs) (hparts : p.parts = ps) (hp : m.Holds p) :
    ∀ dir ∈ dirs, m.isDir dir = true := by
  induction hout generalizing p with
  | root =>
    intro dir hdir
    cases hdir
  | step habs hdir _ ih =>
    have hisDir := h.around habs (hparts.trans (congrArg (· ++ _) hdir.symm)) hp
    intro d hd
    rcases List.mem_cons.1 hd with rfl | hd
    · exact hisDir
    · exact ih hdir (.inr hisDir) d hd

theorem Closed.ancestors (h : m.Closed) (habs : p.isAbsolute = true) (hp : m.Holds p) :
    ∀ dir ∈ p.ancestors.tail, m.isDir dir = true :=
  h.outwards (Path.outwards_ancestors habs) rfl hp

theorem Closed.of_prefix (h : m.Closed) (habs : p.isAbsolute = true) (hp : m.isDir p = true)
    (hne : dir.parts ≠ []) (hpre : dir.parts <+: p.parts) : m.isDir dir = true := by
  obtain ⟨d, hd, hparts⟩ := (Path.exists_mem_ancestors_iff habs).2 ⟨hne, hpre⟩
  rw [← isDir_of_parts hparts]
  rcases Path.mem_ancestors.1 hd with rfl | hd
  · exact hp
  · exact h.ancestors habs (.inr hp) d hd

/-- What is inside of a directory is in something right inside of it. -/
theorem Closed.exists_child (h : m.Closed) (habs : p.isAbsolute = true) (hp : m.Holds p)
    (hwithin : dir.parts <+: p.parts) (hne : dir.parts ≠ p.parts) :
    ∃ q part, m.Holds q ∧ q.parts = dir.parts ++ [part] ∧ q.parts <+: p.parts := by
  obtain ⟨rest, hrest⟩ := hwithin
  cases rest with
  | nil => exact absurd (by simpa using hrest) hne
  | cons part rest =>
    have hfront : dir.parts ++ [part] <+: p.parts := ⟨rest, by rw [← hrest]; simp⟩
    obtain ⟨q, hq, hparts⟩ :=
      (Path.exists_mem_ancestors_iff habs).2 ⟨by simp, hfront⟩
    refine ⟨q, part, ?_, hparts, hparts ▸ hfront⟩
    rcases Path.mem_ancestors.1 hq with rfl | hq
    · exact hp
    · exact .inr (h.ancestors habs hp q hq)

/-! ## What is right inside -/

theorem holds_iff_exists_mem :
    m.Holds p ↔ ∃ q ∈ PathMap.keys m.files ++ PathMap.keys m.dirs, q.parts = p.parts := by
  rw [Holds, isFile, isDir, PathMap.has_iff_exists_mem, PathMap.has_iff_exists_mem]
  simp only [List.mem_append, or_and_right, exists_or]

theorem of_mem_childrenOf {q : Path} (h : q ∈ m.childrenOf dir) :
    q ∈ PathMap.keys m.files ++ PathMap.keys m.dirs ∧ ∃ part, q.parts = dir.parts ++ [part] := by
  have hmem := PathMap.mem_of_mem_keys_ofList h
  rw [List.map_map, Function.comp_def, List.map_id'] at hmem
  obtain ⟨hkey, hany⟩ := List.mem_filter.1 hmem
  obtain ⟨outer, houter, hsame⟩ := (Option.any_eq_true _ _).1 hany
  exact ⟨hkey, Path.same_iff.1 hsame ▸ Path.parts_parent? houter⟩

theorem exists_mem_childrenOf {q : Path} (hq : q ∈ PathMap.keys m.files ++ PathMap.keys m.dirs)
    (houter : ∃ d, q.parent? = some d ∧ d.parts = dir.parts) :
    ∃ c ∈ m.childrenOf dir, c.parts = q.parts := by
  obtain ⟨outer, houter, hsame⟩ := houter
  have hmem : q ∈ (PathMap.keys m.files ++ PathMap.keys m.dirs).filter
      fun q => q.parent?.any (·.same dir) :=
    List.mem_filter.2 ⟨hq, (Option.any_eq_true _ _).2 ⟨outer, houter, Path.same_iff.2 hsame⟩⟩
  exact PathMap.has_iff_exists_mem.1
    (PathMap.has_ofList (List.mem_map_of_mem (f := fun q => (q, ())) hmem))

/-- The children of a directory are what is right inside of it. -/
theorem exists_mem_childrenOf_iff (hdir : dir.isAbsolute = true) :
    (∃ q ∈ m.childrenOf dir, q.parts = p.parts) ↔
      m.Holds p ∧ ∃ part, p.parts = dir.parts ++ [part] := by
  constructor
  · rintro ⟨q, hq, hparts⟩
    obtain ⟨hkey, hpart⟩ := of_mem_childrenOf hq
    exact ⟨holds_iff_exists_mem.2 ⟨q, hkey, hparts⟩, hparts ▸ hpart⟩
  · rintro ⟨hp, part, hparts⟩
    obtain ⟨q, hq, hsame⟩ := holds_iff_exists_mem.1 hp
    rw [← hsame] at hparts ⊢
    exact exists_mem_childrenOf hq ((Path.exists_parent?_iff hdir).2 ⟨part, hparts⟩)

theorem isEmpty_childrenOf_iff (hdir : dir.isAbsolute = true) :
    (m.childrenOf dir).isEmpty = true ↔ ∀ p part, p.parts = dir.parts ++ [part] → ¬m.Holds p := by
  rw [List.isEmpty_iff, List.eq_nil_iff_forall_not_mem]
  constructor
  · intro hempty p part hparts hp
    obtain ⟨q, hq, _⟩ := (exists_mem_childrenOf_iff hdir).2 ⟨hp, part, hparts⟩
    exact hempty q hq
  · intro hnone q hq
    obtain ⟨hp, part, hparts⟩ := (exists_mem_childrenOf_iff hdir).1 ⟨q, hq, rfl⟩
    exact hnone q part hparts hp

/-! ## What an operation leaves of the tree -/

theorem isFile_setFile {content : Content} :
    (m.setFile p content).isFile q = true ↔ p.parts = q.parts ∨ m.isFile q = true :=
  PathMap.has_insert_iff

theorem isDir_addDirs_iff (habs : p.isAbsolute = true) :
    (m.addDirs p).isDir q = true ↔
      m.isDir q = true ∨ ∃ dir ∈ p.ancestors, dir.parts = q.parts := by
  have htake : p.ancestors.takeWhile (fun dir => !dir.text.isEmpty) = p.ancestors := by
    refine List.takeWhile_eq_self_iff.2 ?_
    intro dir hdir
    simpa using Path.text_ne_empty (Path.isAbsolute_of_mem_ancestors habs hdir)
  rw [isDir, addDirs, htake]
  exact PathMap.has_foldl_insert_iff

theorem closed_empty : Closed .empty := by
  intro p dir hp
  rcases hp with hp | hp <;> cases hp

theorem Closed.setFile (h : m.Closed) (habs : p.isAbsolute = true) {content : Content}
    (haround : ∀ dir, p.parent? = some dir → m.isDir dir = true) :
    (m.setFile p content).Closed := by
  intro q dir hq hdir
  show m.isDir dir = true
  rw [Holds, isFile_setFile] at hq
  rcases hq with (hparts | hq) | hq
  · -- the file itself, under any spelling
    have hdirabs := Path.isAbsolute_parent? (Path.isAbsolute_of_parts hparts habs) hdir
    obtain ⟨part, hpart⟩ := Path.parts_parent? hdir
    obtain ⟨d, hd, hsame⟩ := (Path.exists_parent?_iff hdirabs).2 ⟨part, hparts.trans hpart⟩
    rw [← isDir_of_parts hsame]
    exact haround d hd
  · exact h q dir (.inl hq) hdir
  · exact h q dir (.inr hq) hdir

theorem Closed.addDirs (h : m.Closed) (habs : p.isAbsolute = true) : (m.addDirs p).Closed := by
  intro q dir hq hdir
  rw [isDir_addDirs_iff habs]
  have hold (hq : m.Holds q) : m.isDir dir = true := h q dir hq hdir
  rw [Holds, isDir_addDirs_iff habs] at hq
  rcases hq with hq | hq | hq
  · exact .inl (hold (.inl hq))
  · exact .inl (hold (.inr hq))
  · obtain ⟨_, hpre⟩ := (Path.exists_mem_ancestors_iff habs).1 hq
    have hqabs : q.isAbsolute = true := by
      obtain ⟨d, hd, hparts⟩ := hq
      exact Path.isAbsolute_of_parts hparts (Path.isAbsolute_of_mem_ancestors habs hd)
    have hdirabs := Path.isAbsolute_parent? hqabs hdir
    exact .inr ((Path.exists_mem_ancestors_iff habs).2
      ⟨(Path.outwards_ancestors hdirabs).ne_nil, (Path.parts_prefix_of_parent? hdir).trans hpre⟩)

theorem Closed.put (h : m.Closed) (habs : p.isAbsolute = true) (content : Content) :
    (m.put p content).Closed := by
  unfold Memory.put
  split
  · rename_i dir hdir
    have hdirabs := Path.isAbsolute_parent? habs hdir
    refine (h.addDirs hdirabs).setFile habs ?_
    intro d hd
    obtain rfl := Option.some.inj (hdir.symm.trans hd)
    exact isDir_addDirs_self m (Path.text_ne_empty hdirabs)
  · rename_i hnone
    refine h.setFile habs ?_
    intro dir hdir
    cases hnone.symm.trans hdir

theorem Closed.write (h : m.Closed) (habs : p.isAbsolute = true) {content : Content}
    (hwrite : m.write p content = .ok m') : m'.Closed := by
  obtain ⟨dir, hdir, hisDir, rfl⟩ := eq_of_write hwrite
  refine h.setFile habs ?_
  intro d hd
  obtain rfl := Option.some.inj (hdir.symm.trans hd)
  exact hisDir

theorem Closed.eraseFile (h : m.Closed) (p : Path) :
    Closed { m with files := PathMap.erase p m.files } := by
  intro q dir hq hdir
  refine h q dir ?_ hdir
  rcases hq with hq | hq
  · exact .inl ((PathMap.has_erase p q m.files).1 hq).2
  · exact .inr hq

/-- A directory with nothing right inside of it may go. -/
theorem Closed.eraseDir (h : m.Closed) (habs : p.isAbsolute = true)
    (hempty : (m.childrenOf p).isEmpty = true) :
    Closed { m with dirs := PathMap.erase p m.dirs } := by
  intro q dir hq hdir
  have hold : m.Holds q := by
    rcases hq with hq | hq
    · exact .inl hq
    · exact .inr ((PathMap.has_erase p q m.dirs).1 hq).2
  refine (PathMap.has_erase p dir m.dirs).2 ⟨fun hsame => ?_, h q dir hold hdir⟩
  obtain ⟨part, hparts⟩ := Path.parts_parent? hdir
  exact (isEmpty_childrenOf_iff habs).1 hempty q part (hsame ▸ hparts) hold

/-- With nothing right inside of it, a directory has nothing inside of it. -/
theorem Closed.same_of_isEmpty (h : m.Closed) (hdir : dir.isAbsolute = true)
    (hempty : (m.childrenOf dir).isEmpty = true) (hp : m.Holds p)
    (hwithin : p.isWithin dir = true) : p.same dir = true := by
  have hpre : dir.parts <+: p.parts := List.isPrefixOf_iff_prefix.1 hwithin
  by_contra hne
  rw [Path.same_iff] at hne
  have habs : p.isAbsolute = true := by
    obtain ⟨rest, hrest⟩ := Path.isAbsolute_iff.1 hdir
    obtain ⟨more, hmore⟩ := hpre
    exact Path.isAbsolute_iff.2 ⟨rest ++ more, by rw [← hmore, hrest]; rfl⟩
  obtain ⟨q, part, hq, hparts, _⟩ := h.exists_child habs hp hpre (Ne.symm hne)
  exact (isEmpty_childrenOf_iff hdir).1 hempty q part hparts hq

end Memory

/-! ## Operations one after the other -/

/-- What changes a store. -/
inductive Operation where
  | put (p : Path) (content : Content)
  | write (p : Path) (content : Content)
  | remove (p : Path)
  | createDir (p : Path) (nested : Bool)
  | removeDir (p : Path)
  deriving DecidableEq, Repr

namespace Operation

def path : Operation → Path
  | put p _ | write p _ | remove p | createDir p _ | removeDir p => p

/-- The file that an operation names, if it is about a file. -/
def file? : Operation → Option Path
  | put p _ | write p _ | remove p => some p
  | createDir .. | removeDir _ => none

def run : Operation → Access Unit
  | put p content => Store.put p content
  | write p content => Store.write p content
  | remove p => Store.remove p
  | createDir p false => Store.createDir p
  | createDir p true => Store.createDirs p
  | removeDir p => Store.removeDir p

/-- What an operation makes of a memory. -/
def on (m : Memory) : Operation → Except Error Memory
  | put p content => .ok (m.put p content)
  | write p content => m.write p content
  | remove p => m.remove p
  | createDir p nested => m.createDir p nested
  | removeDir p => m.removeDir p

/-- The memory after an operation, whether it succeeds or fails. -/
def after (m : Memory) (op : Operation) : Memory :=
  match op.on m with
  | .ok m' => m'
  | .error _ => m

/-- An operation that fails leaves the memory as it is. -/
theorem run_memory (op : Operation) (m : Memory) :
    op.run (.memory m) = ((op.on m).map fun _ => (), .memory (op.after m)) := by
  cases op with
  | put p content => rfl
  | createDir p nested =>
    cases nested <;> simp only [run, Store.createDir, createDirs, change, after, on] <;>
      split <;> rename_i h <;> rw [h] <;> rfl
  | _ =>
    simp only [run, Store.write, Store.remove, Store.removeDir, change, after, on]
    split <;> rename_i h <;> rw [h] <;> rfl

variable {op : Operation} {m m' : Memory}

theorem closed_on (h : m.Closed) (habs : op.path.isAbsolute = true) (hop : op.on m = .ok m') :
    m'.Closed := by
  cases op with
  | put p content =>
    cases hop
    exact h.put habs content
  | write p content => exact h.write habs hop
  | remove p =>
    rw [Memory.eq_of_remove hop]
    exact h.eraseFile p
  | createDir p nested =>
    rw [Memory.eq_of_createDir hop]
    exact h.addDirs habs
  | removeDir p =>
    rw [Memory.eq_of_removeDir hop]
    exact h.eraseDir habs (Memory.isEmpty_of_removeDir hop).2

/-- The files of which an operation does not name one are as they were. -/
theorem get?_on (hop : op.on m = .ok m') {p : Path}
    (hother : ∀ q, op.file? = some q → q.same p = false) :
    PathMap.get? p m'.files = PathMap.get? p m.files := by
  have hparts {q : Path} (hq : op.file? = some q) : q.parts ≠ p.parts := fun he => by
    have hsame := hother q hq
    rw [Path.same_iff.2 he] at hsame
    cases hsame
  cases op with
  | put q content =>
    cases hop
    unfold Memory.put
    split <;> exact PathMap.get?_insert_of_ne (hparts rfl) _ _
  | write q content =>
    obtain ⟨_, _, _, rfl⟩ := Memory.eq_of_write hop
    exact PathMap.get?_insert_of_ne (hparts rfl) _ _
  | remove q =>
    rw [Memory.eq_of_remove hop]
    exact (PathMap.get?_erase _ _ _).trans (if_neg (hparts rfl))
  | createDir q nested =>
    rw [Memory.eq_of_createDir hop]
    rfl
  | removeDir q => rw [Memory.eq_of_removeDir hop]

/-- Only a directory that is named goes, and only if there is nothing else inside of it. -/
theorem emptied_on (h : m.Closed) (habs : op.path.isAbsolute = true) (hop : op.on m = .ok m')
    {dir : Path} (hdir : m.isDir dir = true) (hgone : m'.isDir dir = false) :
    (∃ p, op = .removeDir p ∧ p.same dir = true) ∧
      ∀ p, m.Holds p → p.isWithin dir = true → p.same dir = true := by
  have kept (hmore : m'.isDir dir = true) : False := by
    rw [hmore] at hgone
    cases hgone
  cases op with
  | put p content =>
    cases hop
    refine (kept ?_).elim
    unfold Memory.put
    split
    · rename_i around haround
      exact (Memory.isDir_addDirs_iff (Path.isAbsolute_parent? habs haround)).2 (.inl hdir)
    · exact hdir
  | write p content =>
    obtain ⟨_, _, _, rfl⟩ := Memory.eq_of_write hop
    exact (kept hdir).elim
  | remove p =>
    obtain rfl := Memory.eq_of_remove hop
    exact (kept hdir).elim
  | createDir p nested =>
    obtain rfl := Memory.eq_of_createDir hop
    exact (kept ((Memory.isDir_addDirs_iff habs).2 (.inl hdir))).elim
  | removeDir p =>
    obtain rfl := Memory.eq_of_removeDir hop
    have hsame : p.parts = dir.parts := by
      by_contra hne
      exact kept ((PathMap.has_erase p dir m.dirs).2 ⟨hne, hdir⟩)
    refine ⟨⟨p, rfl, Path.same_iff.2 hsame⟩, fun q hq hwithin => ?_⟩
    have hinside : q.isWithin p = true := by rwa [Path.isWithin, hsame]
    have hq := h.same_of_isEmpty habs (Memory.isEmpty_of_removeDir hop).2 hq hinside
    exact Path.same_iff.2 ((Path.same_iff.1 hq).trans hsame)

/-- When an operation can be done: a file is written into a directory, and a directory is removed
if there is nothing else inside of it. -/
def Allowed (m : Memory) : Operation → Prop
  | put .. => True
  | write p _ => ∃ dir, p.parent? = some dir ∧ m.isDir dir = true
  | remove p => m.isFile p = true
  | createDir p nested => nested = false → ∀ dir, p.parent? = some dir → m.isDir dir = true
  | removeDir p => m.isDir p = true ∧ ∀ q, m.Holds q → q.isWithin p = true → q.same p = true

/-- What an operation is for. -/
def Done (m : Memory) : Operation → Prop
  | put p content | write p content => m.content? p = .ok content
  | remove p => m.isFile p = false
  | createDir p _ => m.isDir p = true
  | removeDir p => m.isDir p = false

theorem exists_on_iff (h : m.Closed) (habs : op.path.isAbsolute = true) :
    (∃ m', op.on m = .ok m') ↔ op.Allowed m := by
  cases op with
  | put p content => exact iff_of_true ⟨_, rfl⟩ trivial
  | write p content =>
    show (∃ m', m.write p content = .ok m') ↔ ∃ dir, p.parent? = some dir ∧ m.isDir dir = true
    constructor
    · rintro ⟨m', hwrite⟩
      obtain ⟨dir, hdir, hisDir, _⟩ := Memory.eq_of_write hwrite
      exact ⟨dir, hdir, hisDir⟩
    · rintro ⟨dir, hdir, hisDir⟩
      exact ⟨m.setFile p content, by simp only [Memory.write, hdir, hisDir, if_true]⟩
  | remove p =>
    show (∃ m', m.remove p = .ok m') ↔ m.isFile p = true
    unfold Memory.remove
    by_cases hfile : m.isFile p = true
    · simp [hfile]
    · simp [hfile]
  | createDir p nested =>
    show (∃ m', m.createDir p nested = .ok m') ↔
      (nested = false → ∀ dir, p.parent? = some dir → m.isDir dir = true)
    unfold Memory.createDir
    cases hdir : p.parent? with
    | none => simp
    | some dir => cases nested <;> cases hisDir : m.isDir dir <;> simp [hisDir]
  | removeDir p =>
    show (∃ m', m.removeDir p = .ok m') ↔
      m.isDir p = true ∧ ∀ q, m.Holds q → q.isWithin p = true → q.same p = true
    constructor
    · rintro ⟨m', hremove⟩
      obtain ⟨hisDir, hempty⟩ := Memory.isEmpty_of_removeDir hremove
      exact ⟨hisDir, fun q => h.same_of_isEmpty habs hempty⟩
    · rintro ⟨hisDir, hnone⟩
      have hempty : (m.childrenOf p).isEmpty = true := by
        refine (Memory.isEmpty_childrenOf_iff habs).2 ?_
        intro q part hparts hq
        have hwithin : q.isWithin p = true :=
          List.isPrefixOf_iff_prefix.2 ⟨[part], hparts.symm⟩
        have hsame := Path.same_iff.1 (hnone q hq hwithin)
        rw [hparts] at hsame
        exact List.cons_ne_nil _ _ (List.append_right_eq_self.1 hsame)
      refine ⟨{ m with dirs := PathMap.erase p m.dirs }, ?_⟩
      simp only [Memory.removeDir, hisDir, hempty, Bool.not_true, if_true, if_false,
        Bool.false_eq_true]

theorem done_on (habs : op.path.isAbsolute = true) (hop : op.on m = .ok m') : op.Done m' := by
  have hset {p : Path} {content : Content} {m : Memory} :
      (m.setFile p content).content? p = .ok content := by
    simp only [Memory.content?, Memory.setFile, PathMap.get?_insert_of_same rfl]
  cases op with
  | put p content =>
    cases hop
    show (m.put p content).content? p = .ok content
    unfold Memory.put
    split <;> exact hset
  | write p content =>
    obtain ⟨_, _, _, rfl⟩ := Memory.eq_of_write hop
    exact hset
  | remove p =>
    rw [Memory.eq_of_remove hop]
    refine Bool.eq_false_iff.2 ?_
    intro hleft
    exact ((PathMap.has_erase p p m.files).1 hleft).1 rfl
  | createDir p nested =>
    rw [Memory.eq_of_createDir hop]
    exact Memory.isDir_addDirs_self m (Path.text_ne_empty habs)
  | removeDir p =>
    rw [Memory.eq_of_removeDir hop]
    refine Bool.eq_false_iff.2 ?_
    intro hleft
    exact ((PathMap.has_erase p p m.dirs).1 hleft).1 rfl

/-- What an operation makes of a memory that is a tree. -/
structure Step (op : Operation) (m : Memory) (result : Except Error Unit) (m' : Memory) : Prop where
  closed : m'.Closed
  allowed : result = .ok () ↔ op.Allowed m
  done : result = .ok () → op.Done m'
  failed : ∀ e, result = .error e → m' = m
  emptied : ∀ dir, m.isDir dir = true → m'.isDir dir = false →
    (∃ p, op = .removeDir p ∧ p.same dir = true) ∧
      ∀ p, m.Holds p → p.isWithin dir = true → p.same dir = true
  others : ∀ p, (∀ q, op.file? = some q → q.same p = false) → m'.content? p = m.content? p

theorem exists_step (h : m.Closed) (habs : op.path.isAbsolute = true) :
    ∃ result m', op.run (.memory m) = (result, .memory m') ∧ Step op m result m' := by
  refine ⟨_, _, run_memory op m, ?_⟩
  have hallowed := exists_on_iff h habs
  unfold after
  cases hop : op.on m with
  | ok m' =>
    refine ⟨closed_on h habs hop, iff_of_true rfl (hallowed.1 ⟨m', hop⟩), ?_, ?_, ?_, ?_⟩
    · intro _
      exact done_on habs hop
    · intro e he
      cases he
    · intro dir
      exact emptied_on h habs hop
    · intro p hother
      simp only [Memory.content?, get?_on hop hother]
  | error e =>
    have hnot : ¬op.Allowed m := by
      intro hcan
      obtain ⟨m', hm'⟩ := hallowed.2 hcan
      cases hop.symm.trans hm'
    refine ⟨h, ⟨?_, fun hcan => absurd hcan hnot⟩, ?_, fun _ _ => rfl, ?_, fun _ _ => rfl⟩
    · intro hok
      cases hok
    · intro hok
      cases hok
    · intro dir hdir hgone
      cases hdir.symm.trans hgone

/-- A store after some operations, of which any may have failed. -/
def runAll (ops : List Operation) (s : Store) : Store := ops.foldl (fun s op => (op.run s).2) s

variable {ops : List Operation}

theorem closed_runAll (habs : ∀ op ∈ ops, op.path.isAbsolute = true) (h : m.Closed) :
    ∃ m', runAll ops (.memory m) = .memory m' ∧ m'.Closed := by
  induction ops generalizing m with
  | nil => exact ⟨m, rfl, h⟩
  | cons op ops ih =>
    obtain ⟨hop, hrest⟩ := List.forall_mem_cons.1 habs
    obtain ⟨result, m₁, hrun, hstep⟩ := exists_step h hop
    obtain ⟨m', hm', hclosed⟩ := ih hrest hstep.closed
    refine ⟨m', ?_, hclosed⟩
    rw [← hm']
    show runAll ops (op.run (.memory m)).2 = runAll ops (.memory m₁)
    rw [hrun]

/-- Operations on paths from the root make a tree of an empty memory: the directory around
everything there is is there. Each operation is done exactly if it can be, a failure changes
nothing, a directory goes only if there is nothing else inside of it, and no file changes but the
one that is named. -/
theorem tree_of_operations (habs : ∀ op ∈ ops, op.path.isAbsolute = true) :
    ∃ m, runAll ops (.memory .empty) = .memory m ∧ m.Closed ∧
      ∀ before op rest, ops = before ++ op :: rest →
        ∃ m₁ result m₂, runAll before (.memory .empty) = .memory m₁ ∧
          op.run (.memory m₁) = (result, .memory m₂) ∧ Step op m₁ result m₂ := by
  obtain ⟨m, hm, hclosed⟩ := closed_runAll habs Memory.closed_empty
  refine ⟨m, hm, hclosed, fun before op rest hops => ?_⟩
  subst hops
  rw [List.forall_mem_append, List.forall_mem_cons] at habs
  obtain ⟨hbefore, hop, _⟩ := habs
  obtain ⟨m₁, hm₁, hclosed₁⟩ := closed_runAll hbefore Memory.closed_empty
  obtain ⟨result, m₂, hrun, hstep⟩ := exists_step hclosed₁ hop
  exact ⟨m₁, result, m₂, hm₁, hrun, hstep⟩

/-- A file is put below new directories; its directory goes after it, and not before, and nothing
is written below a directory that is not there. -/
def mixedOperations : List Operation :=
  [.put ⟨"/a/b/c.md"⟩ (.text "x"), .removeDir ⟨"/a/b"⟩, .write ⟨"/d/e.md"⟩ (.text "y"),
    .createDir ⟨"/a/d/f"⟩ false, .remove ⟨"/a/b/c.md"⟩, .removeDir ⟨"/a/b"⟩,
    .createDir ⟨"/a/d/f"⟩ true]

theorem tree_of_mixedOperations :
    (∀ op ∈ mixedOperations, op.path.isAbsolute = true) ∧
      ∃ m, runAll mixedOperations (.memory .empty) = .memory m ∧ m.Closed ∧
        m.isDir ⟨"/a/b"⟩ = false ∧ m.isDir ⟨"/a/d/f"⟩ = true := by
  have habs : ∀ op ∈ mixedOperations, op.path.isAbsolute = true := by decide +kernel
  refine ⟨habs, ?_⟩
  obtain ⟨m, hm, hclosed, _⟩ := tree_of_operations habs
  have hend : (runAll mixedOperations (.memory .empty)).hasDir ⟨"/a/b"⟩ = false ∧
      (runAll mixedOperations (.memory .empty)).hasDir ⟨"/a/d/f"⟩ = true := by decide +kernel
  rw [hm] at hend
  exact ⟨m, hm, hclosed, hend⟩

end Operation
end AgentDocs.Store
