import AgentDocs.Proofs.Generate.Confined
import AgentDocs.Proofs.Generate.Reconcile
import AgentDocs.Proofs.Store.Tree
import Mathlib.Algebra.Order.BigOperators.Group.List
import Mathlib.Algebra.Order.Group.Nat
import Mathlib.Data.List.Infix

/-! # What goes with stale files

With each file that is removed, the directories around it go from the inside out, up to the first
in which something is left. So after each file all directories around lost files that are left have
something right inside of them, and this tells what is left of the directories: it does not matter
in which order the files went, or how often they were named. -/
namespace AgentDocs
open Effect Store

namespace Store.Memory
variable {m c c' : Memory} {p q dir : Path}

/-! ## What is lost -/

/-- Whether a file of one memory is gone in another. -/
def LostFile (m c : Memory) (p : Path) : Prop := m.isFile p = true ∧ c.isFile p = false

/-- Whether a directory of one memory is gone in another. -/
def LostDir (m c : Memory) (dir : Path) : Prop := m.isDir dir = true ∧ c.isDir dir = false

/-- Whether a directory is one of those around a lost file. -/
def AroundLost (m c : Memory) (dir : Path) : Prop :=
  ∃ p, m.LostFile c p ∧ dir.parts <+: p.parts ∧ dir.parts ≠ p.parts

/-- Whether something is right inside of a directory. -/
def Occupied (m : Memory) (dir : Path) : Prop :=
  ∃ q, m.Holds q ∧ ∃ part, q.parts = dir.parts ++ [part]

theorem occupied_of_not_isEmpty (hdir : dir.isAbsolute = true)
    (h : (m.childrenOf dir).isEmpty = false) : m.Occupied dir := by
  by_contra hnone
  rw [(isEmpty_childrenOf_iff hdir).2 fun q part hparts hq => hnone ⟨q, hq, part, hparts⟩] at h
  cases h

theorem Occupied.of_parts (h : m.Occupied dir) (hparts : dir.parts = q.parts) : m.Occupied q := by
  rwa [Occupied, ← hparts]

theorem AroundLost.of_parts (h : m.AroundLost c dir) (hparts : dir.parts = q.parts) :
    m.AroundLost c q := by
  rwa [AroundLost, ← hparts]

/-- No directory has more than so many parts. -/
theorem exists_bound (m : Memory) :
    ∃ bound, ∀ d, m.isDir d = true → d.parts.length ≤ bound := by
  refine ⟨((PathMap.keys m.dirs).map fun d => d.parts.length).sum, ?_⟩
  intro d hd
  obtain ⟨key, hkey, hparts⟩ := PathMap.has_iff_exists_mem.1 hd
  rw [← hparts]
  exact List.le_sum_of_mem (List.mem_map_of_mem hkey)

/-- What becomes of a memory while files are removed inside of a root: the directories that are
lost were around lost files, and those that are left are occupied. Where a file or a directory has
just been removed, the directory around it may be empty. -/
structure Swept (root : Path) (m c : Memory) (gap : List Part) : Prop where
  files : PathMap.LeftOf m.files c.files
  dirs : PathMap.LeftOf m.dirs c.dirs
  reads : c.reads = m.reads
  closed : c.Closed
  lost : ∀ dir, m.LostDir c dir → Path.Inside root dir ∧ m.AroundLost c dir
  occupied : ∀ dir, c.isDir dir = true → Path.Inside root dir → m.AroundLost c dir →
    dir.parts ≠ gap → c.Occupied dir

namespace Swept
variable {root : Path} {gap : List Part}

theorem refl (root : Path) (h : m.Closed) : Swept root m m [] where
  files := PathMap.leftOf_refl _
  dirs := PathMap.leftOf_refl _
  reads := rfl
  closed := h
  lost dir hlost := nomatch hlost.1.symm.trans hlost.2
  occupied dir _ _ hlost := by
    obtain ⟨p, hp, _⟩ := hlost
    cases hp.1.symm.trans hp.2

/-- No directory is the exception if the one in question is occupied. -/
theorem filled (h : Swept root m c dir.parts)
    (hdir : c.isDir dir = true → Path.Inside root dir → c.Occupied dir) :
    Swept root m c [] where
  files := h.files
  dirs := h.dirs
  reads := h.reads
  closed := h.closed
  lost := h.lost
  occupied d hd hinside hlost _ := by
    by_cases hsame : d.parts = dir.parts
    · rw [isDir_of_parts hsame] at hd
      exact (hdir hd (hinside.of_parts hsame)).of_parts hsame.symm
    · exact h.occupied d hd hinside hlost hsame

theorem eraseFile (h : Swept root m c []) (habs : p.isAbsolute = true) (hfile : c.isFile p = true) :
    Swept root m { c with files := PathMap.erase p c.files } p.parts.dropLast where
  files := h.files.erase p
  dirs := h.dirs
  reads := h.reads
  closed := h.closed.eraseFile p
  lost d hd := by
    obtain ⟨hinside, q, hq, haround⟩ := h.lost d hd
    refine ⟨hinside, q, ⟨hq.1, ?_⟩, haround⟩
    refine Bool.eq_false_iff.2 ?_
    intro hleft
    cases hq.2.symm.trans ((PathMap.has_erase p q c.files).1 hleft).2
  occupied d hd hinside hlost hne := by
    obtain ⟨q, hq, hpre, hless⟩ := hlost
    -- something was right inside before: on the way to the file, or since a file was lost
    have hbefore : c.Occupied d := by
      by_cases hsame : q.parts = p.parts
      · obtain ⟨r, part, hr, hparts, _⟩ :=
          h.closed.exists_child habs (.inl hfile) (hsame ▸ hpre) (hsame ▸ hless)
        exact ⟨r, hr, part, hparts⟩
      · have hgone : c.isFile q = false := by
          refine Bool.eq_false_iff.2 ?_
          intro hleft
          cases hq.2.symm.trans ((PathMap.has_erase p q c.files).2 ⟨Ne.symm hsame, hleft⟩)
        exact h.occupied d hd hinside ⟨q, ⟨hq.1, hgone⟩, hpre, hless⟩ hinside.ne_nil
    obtain ⟨r, hr, part, hparts⟩ := hbefore
    refine ⟨r, ?_, part, hparts⟩
    rcases hr with hr | hr
    · refine .inl ((PathMap.has_erase p r c.files).2 ⟨fun hsame => hne ?_, hr⟩)
      rw [hsame, hparts, List.dropLast_concat]
    · exact .inr hr

theorem eraseDir (h : Swept root m c dir.parts) (habs : dir.isAbsolute = true)
    (hinside : Path.Inside root dir) (hlost : m.AroundLost c dir)
    (hempty : (c.childrenOf dir).isEmpty = true) :
    Swept root m { c with dirs := PathMap.erase dir c.dirs } dir.parts.dropLast where
  files := h.files
  dirs := h.dirs.erase dir
  reads := h.reads
  closed := h.closed.eraseDir habs hempty
  lost d hd := by
    by_cases hsame : dir.parts = d.parts
    · exact ⟨hinside.of_parts hsame, hlost.of_parts hsame⟩
    · refine h.lost d ⟨hd.1, Bool.eq_false_iff.2 fun hleft => ?_⟩
      cases hd.2.symm.trans ((PathMap.has_erase dir d c.dirs).2 ⟨hsame, hleft⟩)
  occupied d hd hin haround hne := by
    obtain ⟨hother, hd⟩ := (PathMap.has_erase dir d c.dirs).1 hd
    obtain ⟨q, hq, part, hparts⟩ := h.occupied d hd hin haround (Ne.symm hother)
    refine ⟨q, ?_, part, hparts⟩
    rcases hq with hq | hq
    · exact .inl hq
    · refine .inr ((PathMap.has_erase dir q c.dirs).2 ⟨fun hsame => hne ?_, hq⟩)
      rw [hsame, hparts, List.dropLast_concat]

/-- The walk outwards from what has just been removed leaves no exception. -/
theorem pruneDirs {ps : List Part} {dirs : List Path} (hout : Path.Outwards ps dirs)
    (h : Swept root m c ps.dropLast) (hp : m.LostFile c p) (hinside : Path.Inside root p)
    (hfront : ps <+: p.parts) :
    ∃ c', AgentDocs.pruneDirs root dirs (.memory c) = (.ok (), .memory c') ∧
      Swept root m c' [] := by
  induction hout generalizing c with
  | root => exact ⟨c, rfl, h⟩
  | @step ps part dir dirs habs hdir hout ih =>
    rw [List.dropLast_concat, ← hdir] at h
    have hpre : dir.parts <+: p.parts := hdir ▸ (List.prefix_append ps [part]).trans hfront
    have hless : dir.parts ≠ p.parts := by
      intro hsame
      have hlength := hfront.length_le
      rw [← hsame, hdir, List.length_append, List.length_singleton] at hlength
      omega
    rw [pruneDirs_cons]
    split
    · rename_i hstop
      refine ⟨c, rfl, h.filled fun hisDir hin => ?_⟩
      rw [hin.not_same, hin.isWithin, hisDir] at hstop
      exact occupied_of_not_isEmpty habs (by simpa using hstop)
    · rename_i hgo
      simp only [Bool.or_eq_true, Bool.not_eq_true', not_or, Bool.not_eq_true,
        Bool.not_eq_false] at hgo
      obtain ⟨⟨⟨hsame, hwithin⟩, _⟩, hempty⟩ := hgo
      have hin := hinside.of_prefix hpre hwithin hsame
      have hnext := h.eraseDir habs hin ⟨p, hp, hpre, hless⟩ hempty
      rw [hdir] at hnext
      exact ih hnext hp (hdir ▸ hpre)

/-- What is left after the entries of a manifest, which lead inside, have been cleared. -/
theorem removeStale (hroot : root.normal = root) (habs : root.isAbsolute = true)
    {entries : List String} (hentries : ∀ entry ∈ entries, Manifest.isInside entry = true)
    (h : Swept root m c []) :
    ∃ deleted c', AgentDocs.removeStale root entries (.memory c) = (.ok deleted, .memory c') ∧
      Swept root m c' [] := by
  induction entries generalizing c with
  | nil => exact ⟨[], c, rfl, h⟩
  | cons entry entries ih =>
    obtain ⟨hentry, hrest⟩ := List.forall_mem_cons.1 hentries
    cases hfile : c.isFile (placeOf root entry) with
    | false =>
      rw [removeStale_of_not_isFile hfile]
      exact ih hrest h
    | true =>
      have hinside := inside_placeOf hroot hentry
      have hplace := hinside.isAbsolute habs
      have hlost : m.LostFile
          { c with files := PathMap.erase (placeOf root entry) c.files } (placeOf root entry) := by
        refine ⟨h.files.has hfile, Bool.eq_false_iff.2 fun hleft => ?_⟩
        exact ((PathMap.has_erase _ _ c.files).1 hleft).1 rfl
      obtain ⟨c₁, hprune, hswept⟩ := (h.eraseFile hplace hfile).pruneDirs
        (Path.outwards_ancestors hplace) hlost hinside (List.prefix_refl _)
      obtain ⟨deleted, c', hrun, hdone⟩ := ih hrest hswept
      rw [removeStale_of_isFile hfile hprune, hrun]
      exact ⟨entry :: deleted, c', rfl, hdone⟩

/-! ## What is left is told by the files -/

theorem not_holds_of_lost (h : Swept root m c []) (habs : root.isAbsolute = true)
    (hlost : m.LostDir c dir) {part : Part} (hparts : q.parts = dir.parts ++ [part]) :
    ¬c.Holds q := by
  intro hq
  have hdir := h.closed.around ((h.lost dir hlost).1.isAbsolute habs) hparts hq
  cases hlost.2.symm.trans hdir

/-- A directory that is lost in only one of two memories with the same files left has another such
directory right inside of it. -/
theorem exists_deeper (habs : root.isAbsolute = true) (h : Swept root m c [])
    (h' : Swept root m c' []) (hfiles : ∀ p, c.isFile p = c'.isFile p)
    (hdir : c.isDir dir = true) (hgone : c'.isDir dir = false) :
    ∃ q, c.isDir q = true ∧ c'.isDir q = false ∧ q.parts.length = dir.parts.length + 1 := by
  have hlost : m.LostDir c' dir := ⟨h.dirs.has hdir, hgone⟩
  obtain ⟨hinside, p, hp, haround⟩ := h'.lost dir hlost
  have hcommon : m.AroundLost c dir := ⟨p, ⟨hp.1, (hfiles p).trans hp.2⟩, haround⟩
  obtain ⟨q, hq, part, hparts⟩ := h.occupied dir hdir hinside hcommon hinside.ne_nil
  have hnot := h'.not_holds_of_lost habs hlost hparts
  rcases hq with hq | hq
  · exact absurd (.inl ((hfiles q).symm.trans hq)) hnot
  · refine ⟨q, hq, Bool.eq_false_iff.2 fun hleft => hnot (.inr hleft), ?_⟩
    rw [hparts, List.length_append, List.length_singleton]

/-- Of two memories with the same files left, one has no directory that the other has lost. -/
theorem isDir_of_isDir (habs : root.isAbsolute = true) (h : Swept root m c [])
    (h' : Swept root m c' []) (hfiles : ∀ p, c.isFile p = c'.isFile p)
    (hdir : c.isDir dir = true) : c'.isDir dir = true := by
  obtain ⟨bound, hbound⟩ := exists_bound m
  -- one such directory in another, without an end
  have hdescent : ∀ n d, bound < n + d.parts.length → c.isDir d = true → c'.isDir d = true := by
    intro n
    induction n with
    | zero =>
      intro d hlong hd
      have hshort := hbound d (h.dirs.has hd)
      omega
    | succ n ih =>
      intro d hlong hd
      by_contra hgone
      obtain ⟨q, hq, hqgone, hlength⟩ :=
        exists_deeper habs h h' hfiles hd (Bool.eq_false_iff.2 hgone)
      cases hqgone.symm.trans (ih q (by omega) hq)
  exact hdescent (bound + 1) dir (by omega) hdir

theorem eq_of_isFile (habs : root.isAbsolute = true) (h : Swept root m c [])
    (h' : Swept root m c' []) (hfiles : ∀ p, c.isFile p = c'.isFile p) : c = c' := by
  have hsymm : ∀ p, c'.isFile p = c.isFile p := fun p => (hfiles p).symm
  have hdirs : ∀ dir, c.isDir dir = c'.isDir dir := fun dir => Bool.eq_iff_iff.2
    ⟨isDir_of_isDir habs h h' hfiles, isDir_of_isDir habs h' h hsymm⟩
  have hreads : c.reads = c'.reads := h.reads.trans h'.reads.symm
  have hsameFiles : c.files = c'.files := h.files.eq h'.files hfiles
  have hsameDirs : c.dirs = c'.dirs := h.dirs.eq h'.dirs hdirs
  cases c
  cases c'
  simp only at hsameFiles hsameDirs hreads
  rw [hsameFiles, hsameDirs, hreads]

/-- A directory is lost if it was strictly inside of the root and around a lost file, and if all
that was right inside of it is lost. -/
theorem lostDir_iff (h : Swept root m c []) (habs : root.isAbsolute = true) :
    m.LostDir c dir ↔ m.isDir dir = true ∧ Path.Inside root dir ∧ m.AroundLost c dir ∧
      ∀ q ∈ m.childrenOf dir, (m.isFile q = true → m.LostFile c q) ∧
        (m.isDir q = true → m.LostDir c q) := by
  constructor
  · intro hlost
    obtain ⟨hinside, haround⟩ := h.lost dir hlost
    refine ⟨hlost.1, hinside, haround, fun q hq => ?_⟩
    obtain ⟨_, part, hparts⟩ :=
      (exists_mem_childrenOf_iff (hinside.isAbsolute habs)).1 ⟨q, hq, rfl⟩
    have hgone := h.not_holds_of_lost habs hlost hparts
    exact ⟨fun hfile => ⟨hfile, Bool.eq_false_iff.2 fun hleft => hgone (.inl hleft)⟩,
      fun hdir => ⟨hdir, Bool.eq_false_iff.2 fun hleft => hgone (.inr hleft)⟩⟩
  · rintro ⟨hdir, hinside, haround, hchildren⟩
    refine ⟨hdir, Bool.eq_false_iff.2 fun hleft => ?_⟩
    obtain ⟨q, hq, part, hparts⟩ := h.occupied dir hleft hinside haround hinside.ne_nil
    have hbefore : m.Holds q := hq.imp h.files.has h.dirs.has
    obtain ⟨child, hchild, hsame⟩ :=
      (exists_mem_childrenOf_iff (hinside.isAbsolute habs)).2 ⟨hbefore, part, hparts⟩
    obtain ⟨hfile, hisDir⟩ := hchildren child hchild
    rcases hq with hq | hq
    · rw [← isFile_of_parts hsame] at hq
      cases (hfile (h.files.has hq)).2.symm.trans hq
    · rw [← isDir_of_parts hsame] at hq
      cases (hisDir (h.dirs.has hq)).2.symm.trans hq

end Swept
end Store.Memory

/-! ## The entries that are reported -/

/-- Whether there is a file at a path of a store. -/
def isFileIn (s : Store) (p : Path) : Bool :=
  match (Store.isFile p s).1 with
  | .ok found => found
  | .error _ => false

/-- The entries that lead to a file when those before them have been cleared. -/
def reachedFiles (root : Path) (entries : List String) (s : Store) : List String :=
  ((entries.inits.zip entries).filter fun e =>
    isFileIn (removeStale root e.1 s).2 (placeOf root e.2)).map (·.2)

/-- Clearing one entry makes a memory from which the others are cleared. -/
theorem exists_of_removeStale_cons (root : Path) (entry : String) (m : Memory) :
    ∃ m₁, ∀ entries, removeStale root (entry :: entries) (.memory m)
      = ((removeStale root entries (.memory m₁)).1.map fun deleted =>
          if m.isFile (placeOf root entry) then entry :: deleted else deleted,
        (removeStale root entries (.memory m₁)).2) := by
  cases hfile : m.isFile (placeOf root entry) with
  | false =>
    refine ⟨m, fun entries => ?_⟩
    obtain ⟨deleted, m', hrun⟩ := exists_of_removeStale root entries m
    rw [removeStale_of_not_isFile hfile, hrun]
    rfl
  | true =>
    obtain ⟨m₁, hprune⟩ := exists_of_pruneDirs root (placeOf root entry).ancestors.tail
      { m with files := PathMap.erase (placeOf root entry) m.files }
    exact ⟨m₁, fun entries => removeStale_of_isFile hfile hprune⟩

theorem reachedFiles_cons {root : Path} {entry : String} {m m₁ : Memory}
    (h : ∀ entries, (removeStale root (entry :: entries) (.memory m)).2
      = (removeStale root entries (.memory m₁)).2) (entries : List String) :
    reachedFiles root (entry :: entries) (.memory m) =
      if m.isFile (placeOf root entry) then entry :: reachedFiles root entries (.memory m₁)
      else reachedFiles root entries (.memory m₁) := by
  have hfirst : isFileIn (removeStale root [] (.memory m)).2 (placeOf root entry)
      = m.isFile (placeOf root entry) := rfl
  have hlater : ((entries.inits.map (entry :: ·)).zip entries).filter (fun e =>
        isFileIn (removeStale root e.1 (.memory m)).2 (placeOf root e.2))
      = ((entries.inits.zip entries).filter fun e =>
        isFileIn (removeStale root e.1 (.memory m₁)).2 (placeOf root e.2)).map
          (Prod.map (entry :: ·) id) := by
    rw [List.zip_map_left, List.filter_map]
    refine congrArg _ (List.filter_congr fun e _ => ?_)
    show isFileIn (removeStale root (entry :: e.1) (.memory m)).2 (placeOf root e.2) = _
    rw [h]
  have hsnd : (fun e : List String × String => e.2) ∘ Prod.map (entry :: ·) id
      = fun e => e.2 := rfl
  rw [reachedFiles, List.inits_cons, List.zip_cons_cons, List.filter_cons, hfirst, hlater]
  cases m.isFile (placeOf root entry) with
  | false =>
    rw [if_neg Bool.false_ne_true, if_neg Bool.false_ne_true, List.map_map, hsnd]
    rfl
  | true =>
    rw [if_pos rfl, if_pos rfl, List.map_cons, List.map_map, hsnd]
    rfl

theorem reported_of_removeStale {root : Path} {entries deleted : List String} {m : Memory}
    {t : Store} (h : removeStale root entries (.memory m) = (.ok deleted, t)) :
    deleted = reachedFiles root entries (.memory m) := by
  induction entries generalizing m deleted with
  | nil =>
    cases h
    rfl
  | cons entry entries ih =>
    obtain ⟨m₁, hcons⟩ := exists_of_removeStale_cons root entry m
    obtain ⟨rest, m', hrun⟩ := exists_of_removeStale root entries m₁
    rw [hcons, hrun] at h
    cases h
    have hstate : ∀ entries, (removeStale root (entry :: entries) (.memory m)).2
        = (removeStale root entries (.memory m₁)).2 := fun entries => by rw [hcons]
    rw [reachedFiles_cons hstate, ih hrun]

/-- The files that go are those of the entries that are reported. -/
theorem isFile_after_removeStale {root : Path} {entries deleted : List String} {m m' : Memory}
    (h : removeStale root entries (.memory m) = (.ok deleted, .memory m')) :
    (∀ entry ∈ deleted, m.isFile (placeOf root entry) = true) ∧
      ∀ p, m'.isFile p = true ↔
        m.isFile p = true ∧ ∀ entry ∈ deleted, (placeOf root entry).parts ≠ p.parts := by
  induction entries generalizing m deleted with
  | nil =>
    cases h
    simp
  | cons entry entries ih =>
    obtain ⟨m₁, rest, hrest, hdeleted, hget⟩ := removeStale_cons h
    obtain ⟨hfiles, hafter⟩ := ih hrest
    have hfirst : ∀ p, m₁.isFile p = true ↔
        m.isFile p = true ∧ (placeOf root entry).parts ≠ p.parts := by
      intro p
      rw [Memory.isFile, PathMap.has, hget]
      split
      · rename_i hp
        simp [hp]
      · rename_i hp
        exact (and_iff_left hp).symm
    cases hfile : m.isFile (placeOf root entry) with
    | false =>
      rw [hfile, if_neg Bool.false_ne_true] at hdeleted
      subst hdeleted
      refine ⟨fun e he => ((hfirst _).1 (hfiles e he)).1, fun p => ?_⟩
      rw [hafter, hfirst]
      refine and_congr_left fun _ => and_iff_left_of_imp fun hp hsame => ?_
      rw [← Memory.isFile_of_parts hsame, hfile] at hp
      cases hp
    | true =>
      rw [hfile, if_pos rfl] at hdeleted
      subst hdeleted
      refine ⟨List.forall_mem_cons.2 ⟨hfile, fun e he => ((hfirst _).1 (hfiles e he)).1⟩, ?_⟩
      intro p
      rw [hafter, hfirst, List.forall_mem_cons, and_assoc]

theorem isFile_iff_of_removeStale {root : Path} {entries deleted : List String} {m m' : Memory}
    (h : removeStale root entries (.memory m) = (.ok deleted, .memory m')) (p : Path) :
    m'.isFile p = true ↔
      m.isFile p = true ∧ ∀ entry ∈ entries, (placeOf root entry).parts ≠ p.parts := by
  obtain ⟨m₂, hm₂, hgone, hkept⟩ := get?_of_removeStale h
  cases hm₂
  by_cases hp : ∃ entry ∈ entries, (placeOf root entry).parts = p.parts
  · obtain ⟨entry, he, hparts⟩ := hp
    rw [Memory.isFile, PathMap.has, hgone p ⟨entry, he, hparts⟩]
    exact iff_of_false Bool.false_ne_true fun hall => hall.2 entry he hparts
  · have hnone : ∀ entry ∈ entries, (placeOf root entry).parts ≠ p.parts :=
      fun entry he hparts => hp ⟨entry, he, hparts⟩
    rw [isFile_congr (hkept p hnone)]
    exact (and_iff_left hnone).symm

/-! ## The whole sweep -/

/-- What clearing the entries of a manifest does to a memory. -/
structure Sweeps (root : Path) (entries : List String) (m : Memory) (deleted : List String)
    (m' : Memory) : Prop where
  /-- The entries that led to a file when it was their turn. -/
  reported : deleted = reachedFiles root entries (.memory m)
  /-- Their files go, and no others. -/
  lostFile : ∀ p, m.LostFile m' p ↔ ∃ entry ∈ deleted, (placeOf root entry).same p = true
  /-- The directories strictly inside of the root go that are around such a file and in which
  nothing is left. -/
  lostDir : ∀ dir, m.LostDir m' dir ↔
    m.isDir dir = true ∧ Path.Inside root dir ∧ m.AroundLost m' dir ∧
      ∀ q ∈ m.childrenOf dir, (m.isFile q = true → m.LostFile m' q) ∧
        (m.isDir q = true → m.LostDir m' q)
  root : m'.isDir root = m.isDir root
  /-- All else is as it was. -/
  files : PathMap.LeftOf m.files m'.files
  dirs : PathMap.LeftOf m.dirs m'.dirs
  reads : m'.reads = m.reads

variable {root : Path} {m : Memory} {entries : List String}

theorem sweeps_of_swept (habs : root.isAbsolute = true) {deleted : List String} {m' : Memory}
    (hrun : removeStale root entries (.memory m) = (.ok deleted, .memory m'))
    (h : Memory.Swept root m m' []) : Sweeps root entries m deleted m' where
  reported := reported_of_removeStale hrun
  lostFile p := by
    obtain ⟨hfiles, hafter⟩ := isFile_after_removeStale hrun
    rw [Memory.LostFile, ← Bool.not_eq_true, hafter]
    constructor
    · rintro ⟨hp, hgone⟩
      by_contra hnone
      exact hgone ⟨hp, fun entry he hparts => hnone ⟨entry, he, Path.same_iff.2 hparts⟩⟩
    · rintro ⟨entry, he, hsame⟩
      have hparts := Path.same_iff.1 hsame
      refine ⟨?_, fun hleft => hleft.2 entry he hparts⟩
      rw [← Memory.isFile_of_parts hparts]
      exact hfiles entry he
  lostDir dir := h.lostDir_iff habs
  root := by
    refine Bool.eq_iff_iff.2 ⟨h.dirs.has, fun hroot => ?_⟩
    by_contra hgone
    have hinside := (h.lost root ⟨hroot, Bool.eq_false_iff.2 hgone⟩).1
    cases hinside.not_same.symm.trans (Path.same_iff.2 rfl)
  files := h.files
  dirs := h.dirs
  reads := h.reads

/-- Clearing the entries of a manifest removes the files to which they lead, and with them the
directories inside of the root in which nothing is left. In which order the entries come, and how
often, makes no difference to what is left. -/
theorem sweeps_of_removeStale (hroot : root.normal = root) (habs : root.isAbsolute = true)
    (hm : m.Closed) (hentries : ∀ entry ∈ entries, Manifest.isInside entry = true) :
    ∃ deleted m', removeStale root entries (.memory m) = (.ok deleted, .memory m') ∧
      Sweeps root entries m deleted m' ∧
      ∀ others : List String, (∀ entry, entry ∈ others ↔ entry ∈ entries) →
        (removeStale root others (.memory m)).2 = .memory m' := by
  have hstart : Memory.Swept root m m [] := .refl root hm
  obtain ⟨deleted, m', hrun, hswept⟩ := hstart.removeStale hroot habs hentries
  refine ⟨deleted, m', hrun, sweeps_of_swept habs hrun hswept, fun others hothers => ?_⟩
  obtain ⟨deleted', c, hrun', hswept'⟩ :=
    hstart.removeStale hroot habs fun entry he => hentries entry ((hothers entry).1 he)
  have hfiles : ∀ p, c.isFile p = m'.isFile p := by
    intro p
    rw [Bool.eq_iff_iff, isFile_iff_of_removeStale hrun', isFile_iff_of_removeStale hrun]
    simp only [hothers]
  rw [hrun', hswept'.eq_of_isFile habs hswept hfiles]

/-- A file in three directories of which one has another file. -/
def treeBefore : Memory :=
  (Memory.put .empty ⟨"/work/docs/guide/deep/old.md"⟩ (.text "old")).put ⟨"/work/docs/kept.md"⟩
    (.text "kept")

/-- An entry twice, under two spellings, and one for a file that is not there. -/
def staleEntries : List String := ["docs/guide/deep/old.md", "./docs/guide/deep/old.md", "gone.md"]

theorem sweeps_staleEntries :
    treeBefore.Closed ∧ (∀ entry ∈ staleEntries, Manifest.isInside entry = true) ∧
      ∃ deleted m', removeStale ⟨"/work"⟩ staleEntries (.memory treeBefore)
          = (.ok deleted, .memory m') ∧
        Sweeps ⟨"/work"⟩ staleEntries treeBefore deleted m' ∧
        (removeStale ⟨"/work"⟩ staleEntries.reverse (.memory treeBefore)).2 = .memory m' := by
  have hclosed : treeBefore.Closed :=
    (Memory.closed_empty.put (by decide +kernel) _).put (by decide +kernel) _
  have hentries : ∀ entry ∈ staleEntries, Manifest.isInside entry = true := by decide +kernel
  have hnormal : (⟨"/work"⟩ : Path).normal = ⟨"/work"⟩ := by decide +kernel
  obtain ⟨deleted, m', hrun, hsweeps, hothers⟩ :=
    sweeps_of_removeStale hnormal (by decide +kernel) hclosed hentries
  exact ⟨hclosed, hentries, deleted, m', hrun, hsweeps,
    hothers staleEntries.reverse fun entry => List.mem_reverse⟩

example :
    (removeStale ⟨"/work"⟩ staleEntries (.memory treeBefore)).1 = .ok ["docs/guide/deep/old.md"] ∧
      [⟨"/work"⟩, ⟨"/work/docs"⟩, ⟨"/work/docs/guide"⟩, ⟨"/work/docs/guide/deep"⟩].map (fun dir =>
        (removeStale ⟨"/work"⟩ staleEntries (.memory treeBefore)).2.hasDir dir)
          = [true, true, false, false] := by
  decide +kernel

end AgentDocs
