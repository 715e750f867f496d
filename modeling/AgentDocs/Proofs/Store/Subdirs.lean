import AgentDocs.Proofs.Store.Order
import AgentDocs.Proofs.Store.Tree

/-! # Directories right inside a directory

A store lists them all, each once, and in the order of their names. On a disk the path of each is
that of the directory with the name behind it. In memory it is spelled as it was when it came into
the store, which may be with slashes at its end. -/
namespace AgentDocs
open Effect Text

/-- Whether the text of a path ends with its name. -/
def Path.EndsInName (p : Path) : Prop :=
  ∀ name ∈ p.fileName?, (split '/' p.text.toList).getLast? = some name.toList

instance (p : Path) : Decidable p.EndsInName :=
  inferInstanceAs (Decidable (∀ name ∈ p.fileName?, _))

namespace Path

theorem fileName?_of_parts {p : Path} {ps : List Part} {name : String}
    (h : p.parts = ps ++ [.name name]) : p.fileName? = some name := by
  rw [fileName?, h, List.getLast?_concat]

/-- What a name is put behind ends in it. -/
theorem endsInName_child (dir : Path) {name : String} (h : (Part.name name).Proper) :
    (dir.child name).EndsInName := by
  intro other hother
  rw [fileName?_of_parts (parts_child_name dir h)] at hother
  obtain rfl := Option.some.inj hother
  have hrel : (Path.mk name).isAbsolute = false := by
    rw [Bool.eq_false_iff]
    intro habs
    exact h.2.2.2 (List.mem_of_head? (beq_iff_eq.1 habs))
  rw [child, join, hrel, if_neg Bool.false_ne_true]
  split
  · rename_i hslash
    rw [String.toList_append]
    rcases Bool.or_eq_true_iff.1 hslash with hempty | hslash
    · rw [String.isEmpty_iff.1 hempty, String.toList_empty, List.nil_append,
        split_of_notMem h.2.2.2, List.getLast?_singleton]
    · obtain ⟨front, hfront⟩ := List.getLast?_eq_some_iff.1 (beq_iff_eq.1 hslash)
      rw [hfront, List.append_assoc, List.singleton_append, split_append_cons,
        split_of_notMem h.2.2.2, List.getLast?_concat]
  · rw [String.toList_append, String.toList_append, List.append_assoc]
    change (split '/' (dir.text.toList ++ '/' :: name.toList)).getLast? = _
    rw [split_append_cons, split_of_notMem h.2.2.2, List.getLast?_concat]

end Path

namespace Store

/-- Whether there is a directory with a name right inside another directory. -/
def HasDirIn (dir : Path) (name : String) : Store → Prop
  | .memory m => m.isDir dir = true ∧ (Part.name name).Proper ∧ m.isDir (dir.child name) = true
  | .disk d => ∃ place, d.find dir = .ok (place, .directory) ∧
    d.entry? (place ++ [name]) = some .directory

/-- The names of the directories right inside another, in order. -/
structure Subdirs (s : Store) (dir : Path) (names : List String) : Prop where
  ordered : names.Pairwise (· < ·)
  mem_iff : ∀ name, name ∈ names ↔ s.HasDirIn dir name

/-- Whether all paths in a store end in their names. -/
def Plain : Store → Prop
  | .memory m => ∀ p ∈ PathMap.keys m.files ++ PathMap.keys m.dirs, p.EndsInName
  | .disk _ => True

/-- Paths that are listed, each a name behind a directory. -/
def Named (dir : Path) (paths : List Path) (names : List String) : Prop :=
  List.Forall₂ (fun p name => p.parts = dir.parts ++ [.name name]) paths names

theorem compile_star : compile "*" = .ok [.anyText] := by
  simp [compile, pieces, piecesFrom]
  rfl

theorem admits_star (cs : List Char) : admits [.anyText] cs = true := by
  induction cs with
  | nil => rfl
  | cons c cs ih =>
    rw [admits] at ih ⊢
    rw [tails, List.any_cons, ih, Bool.or_true]

/-- Any name will do for `*`. -/
theorem nameAdmitted_star (p : Path) : nameAdmitted [.anyText] p = p.fileName?.isSome := by
  unfold nameAdmitted
  cases p.fileName? with
  | none => rfl
  | some name => exact admits_star _

/-! ## Names of listed paths -/

namespace Named
variable {dir : Path} {paths : List Path} {names : List String}

theorem exists_of_forall (h : ∀ p ∈ paths, ∃ name, p.parts = dir.parts ++ [.name name]) :
    ∃ names, Named dir paths names := by
  induction paths with
  | nil => exact ⟨[], .nil⟩
  | cons p paths ih =>
    obtain ⟨name, hname⟩ := h p List.mem_cons_self
    obtain ⟨names, hnames⟩ := ih fun q hq => h q (List.mem_cons_of_mem _ hq)
    exact ⟨name :: names, .cons hname hnames⟩

theorem mem_iff (h : Named dir paths names) (name : String) :
    name ∈ names ↔ ∃ p ∈ paths, p.parts = dir.parts ++ [.name name] := by
  induction h with
  | nil => simp
  | @cons p first paths names hp _ ih =>
    have hfirst : p.parts = dir.parts ++ [.name name] ↔ name = first := by
      rw [hp, List.append_cancel_left_eq]
      simp [eq_comm]
    rw [List.mem_cons, List.exists_mem_cons_iff, ih, hfirst]

theorem proper (h : Named dir paths names) {name : String} (hname : name ∈ names) :
    (Part.name name).Proper := by
  obtain ⟨p, _, hparts⟩ := (mem_iff h name).1 hname
  exact Path.proper_of_mem_parts (p := p) (by simp [hparts])

/-- What is made of the paths is made of the names, where it is the same for a path and its name. -/
theorem map_eq {α : Type} {f : Path → α} {g : String → α} (h : Named dir paths names)
    (hfg : ∀ p ∈ paths, ∀ name, p.parts = dir.parts ++ [.name name] → f p = g name) :
    paths.map f = names.map g := by
  induction h with
  | nil => rfl
  | @cons p name paths names hp _ ih =>
    rw [List.map_cons, List.map_cons, hfg p List.mem_cons_self name hp,
      ih fun q hq => hfg q (List.mem_cons_of_mem _ hq)]

/-- Paths in order have names in order. -/
theorem ordered (h : Named dir paths names) (hsorted : paths.Pairwise fun p q => p.before q = true) :
    names.Pairwise (· < ·) := by
  induction h with
  | nil => exact .nil
  | @cons p name paths names hp hnames ih =>
    obtain ⟨hfirst, hrest⟩ := List.pairwise_cons.1 hsorted
    refine List.pairwise_cons.2 ⟨fun other hother => ?_, ih hrest⟩
    obtain ⟨q, hq, hqparts⟩ := (mem_iff hnames other).1 hother
    have hbefore := hfirst q hq
    rw [Path.before, hp, hqparts] at hbefore
    exact (Part.listBefore_append_name_iff _).1 hbefore

end Named

/-! ## In memory -/

namespace Memory
variable {m : Memory} {dir : Path}

/-- The directories right inside a directory, as they are spelled. -/
def dirsIn (m : Memory) (dir : Path) : List Path :=
  (m.childrenOf dir).filter fun p => m.isDir p && p.fileName?.isSome

theorem listDirs_of_isDir (h : m.isDir dir = true) :
    m.listDirs dir [.anyText] = .ok (m.dirsIn dir) := by
  simp only [listDirs, children, h, ↓reduceIte, bind, Except.bind, pure, Except.pure,
    nameAdmitted_star, dirsIn]

theorem mem_dirsIn_iff {p : Path} : p ∈ m.dirsIn dir ↔
    p ∈ m.childrenOf dir ∧ m.isDir p = true ∧ ∃ name, p.parts = dir.parts ++ [.name name] := by
  rw [dirsIn, List.mem_filter, Bool.and_eq_true_iff]
  refine and_congr_right fun hchild => and_congr_right fun _ => ⟨fun hname => ?_, ?_⟩
  · obtain ⟨_, part, hparts⟩ := of_mem_childrenOf hchild
    rw [Path.fileName?, hparts, List.getLast?_concat] at hname
    cases part with
    | name name => exact ⟨name, hparts⟩
    | root | here | up => cases hname
  · rintro ⟨name, hparts⟩
    rw [Path.fileName?_of_parts hparts]
    rfl

theorem sorted_dirsIn (m : Memory) (dir : Path) :
    (m.dirsIn dir).Pairwise fun p q => p.before q = true :=
  List.Pairwise.filter _ (List.pairwise_map.2 (PathMap.sorted_ofList _))

theorem hasDirIn_iff_exists_mem (h : m.isDir dir = true) {name : String} :
    HasDirIn dir name (.memory m) ↔ ∃ p ∈ m.dirsIn dir, p.parts = dir.parts ++ [.name name] := by
  constructor
  · rintro ⟨_, hproper, hisDir⟩
    obtain ⟨q, hq, hparts⟩ := PathMap.has_iff_exists_mem.1 hisDir
    rw [Path.parts_child_name dir hproper] at hparts
    obtain ⟨c, hc, hsame⟩ :=
      exists_mem_childrenOf (List.mem_append_right _ hq) (Path.exists_parent?_of_name hparts)
    have hcdir : m.isDir c = true := PathMap.has_iff_exists_mem.2 ⟨q, hq, hsame.symm⟩
    exact ⟨c, mem_dirsIn_iff.2 ⟨hc, hcdir, name, hsame.trans hparts⟩, hsame.trans hparts⟩
  · rintro ⟨p, hp, hparts⟩
    have hproper : (Part.name name).Proper := Path.proper_of_mem_parts (p := p) (by simp [hparts])
    have hchild : p.parts = (dir.child name).parts :=
      hparts.trans (Path.parts_child_name dir hproper).symm
    exact ⟨h, hproper, isDir_of_parts hchild ▸ (mem_dirsIn_iff.1 hp).2.1⟩

theorem subdirs_of_isDir (h : m.isDir dir = true) :
    ∃ names, Subdirs (.memory m) dir names ∧ Named dir (m.dirsIn dir) names := by
  obtain ⟨names, hnamed⟩ := Named.exists_of_forall fun p hp => (mem_dirsIn_iff.1 hp).2.2
  refine ⟨names, ⟨hnamed.ordered (sorted_dirsIn m dir), fun name => ?_⟩, hnamed⟩
  rw [hnamed.mem_iff, hasDirIn_iff_exists_mem h]

theorem endsInName_of_mem_dirsIn (h : Plain (.memory m)) {p : Path} (hp : p ∈ m.dirsIn dir) :
    p.EndsInName := h p (of_mem_childrenOf (mem_dirsIn_iff.1 hp).1).1

end Memory

/-! ## On a disk -/

namespace Disk
variable {d : Disk} {dir : Path}

theorem not_placeBefore_self (place : Place) : placeBefore place place = false := by
  induction place with
  | nil => rfl
  | cons name place ih => rw [placeBefore, if_pos rfl, ih]

/-- A place has one entry. -/
theorem Sorted.has_iff_mem (h : d.Sorted) {place : Place} (hne : place ≠ []) {e : Entry} :
    d.entry? place = some e ↔ (place, e) ∈ d.entries := by
  have hordered := h.ordered
  unfold entry?
  rw [if_neg (by simpa using hne)]
  generalize d.entries = entries at hordered ⊢
  induction entries with
  | nil => simp
  | cons x entries ih =>
    obtain ⟨q, f⟩ := x
    obtain ⟨hfirst, hrest⟩ := List.pairwise_cons.1 hordered
    by_cases hq : q = place
    · subst hq
      have hnone : (q, e) ∉ entries := fun hmem => by
        have hself := hfirst _ hmem
        rw [not_placeBefore_self] at hself
        cases hself
      simp [hnone, eq_comm]
    · simp [hq, Ne.symm hq, ih hrest]

/-- The names of the directories right inside a place. -/
def namesIn (d : Disk) (place : Place) : List String :=
  d.entries.filterMap fun e =>
    if e.1.dropLast = place ∧ e.2 = .directory then e.1.getLast? else none

theorem mem_namesIn_iff (h : d.Sorted) {place : Place} {name : String} :
    name ∈ d.namesIn place ↔ d.entry? (place ++ [name]) = some .directory := by
  rw [h.has_iff_mem (by simp), namesIn, List.mem_filterMap]
  constructor
  · rintro ⟨⟨q, e⟩, hmem, hname⟩
    obtain ⟨⟨rfl, rfl⟩, hlast⟩ := Option.ite_none_right_eq_some.1 hname
    rwa [List.dropLast_append_getLast? _ hlast]
  · intro hmem
    exact ⟨_, hmem, by simp⟩

theorem ordered_namesIn (h : d.Sorted) (place : Place) : (d.namesIn place).Pairwise (· < ·) := by
  refine h.ordered.filterMap _ ?_
  rintro ⟨q, e⟩ ⟨q', e'⟩ hbefore a ha b hb
  obtain ⟨⟨hq, -⟩, hlast⟩ := Option.ite_none_right_eq_some.1 ha
  obtain ⟨⟨hq', -⟩, hlast'⟩ := Option.ite_none_right_eq_some.1 hb
  rw [← List.dropLast_append_getLast? _ hlast, ← List.dropLast_append_getLast? _ hlast', hq, hq',
    ← listBefore_names, List.map_append, List.map_append] at hbefore
  exact (Part.listBefore_append_name_iff _).1 hbefore

theorem Sorted.proper_of_mem_namesIn (h : d.Sorted) {place : Place} {name : String}
    (hname : name ∈ d.namesIn place) : (Part.name name).Proper := by
  obtain ⟨e, hmem, he⟩ := List.mem_filterMap.1 hname
  obtain ⟨-, hlast⟩ := Option.ite_none_right_eq_some.1 he
  exact h.words e hmem name (List.mem_of_getLast? hlast)

theorem listDirs_of_find (h : d.Sorted) {place : Place}
    (hfind : d.find dir = .ok (place, .directory)) :
    d.listDirs dir [.anyText] = .ok ((d.namesIn place).map dir.child) := by
  simp only [listDirs, children, hfind, bind, Except.bind, pure, Except.pure, namesIn,
    nameAdmitted_star, List.filter_filterMap, List.map_filterMap]
  refine congrArg Except.ok (List.filterMap_congr ?_)
  rintro ⟨q, e⟩ hmem
  cases hlast : q.getLast? with
  | none => simp
  | some name =>
    have hproper : (Part.name name).Proper := h.words _ hmem name (List.mem_of_getLast? hlast)
    have hname := Path.fileName?_of_parts (Path.parts_child_name dir hproper)
    by_cases hq : q.dropLast = place <;> by_cases he : e = .directory <;>
      simp [hq, he, hname]

theorem find_of_isDir (h : d.exists? dir (some .directory) = .ok true) :
    ∃ place, d.find dir = .ok (place, .directory) := by
  unfold exists? at h
  split at h
  · cases h
  · exact ⟨_, ‹_›⟩
  · cases h
  · cases h

theorem find_ne_directory (h : d.exists? dir (some .directory) = .ok false) {place : Place} :
    d.find dir ≠ .ok (place, .directory) := by
  intro hfind
  rw [exists?, hfind] at h
  cases h

theorem subdirs_of_find (h : d.Sorted) {place : Place}
    (hfind : d.find dir = .ok (place, .directory)) : Subdirs (.disk d) dir (d.namesIn place) := by
  refine ⟨ordered_namesIn h place, fun name => ?_⟩
  rw [mem_namesIn_iff h]
  constructor
  · exact fun hentry => ⟨place, hfind, hentry⟩
  · rintro ⟨place', hfind', hentry⟩
    obtain ⟨rfl, -⟩ := Prod.mk.inj (Except.ok.inj (hfind.symm.trans hfind'))
    exact hentry

theorem named_child (h : d.Sorted) (dir : Path) (place : Place) :
    Named dir ((d.namesIn place).map dir.child) (d.namesIn place) := by
  refine List.forall₂_map_left_iff.2 (List.forall₂_same.2 fun name hname => ?_)
  exact Path.parts_child_name dir (h.proper_of_mem_namesIn hname)

end Disk

/-! ## Any store -/

variable {s : Store} {dir : Path}

theorem listDirs_star (dir : Path) :
    listDirs dir "*" = query dir (·.listDirs dir [.anyText]) (·.listDirs dir [.anyText]) := by
  rw [listDirs, compile_star]
  rfl

/-- The directories in a directory can be listed. They are those there are, in order. -/
theorem exists_listDirs (hs : s.Sorted) (h : (isDir dir s).1 = .ok true) :
    ∃ dirs names, listDirs dir "*" s = (.ok dirs, s) ∧ Subdirs s dir names ∧
      Named dir dirs names ∧ (Plain s → ∀ p ∈ dirs, p.EndsInName) := by
  cases s with
  | memory m =>
    have hdir : m.isDir dir = true := Except.ok.inj h
    obtain ⟨names, hsub, hnamed⟩ := Memory.subdirs_of_isDir hdir
    refine ⟨_, names, ?_, hsub, hnamed, fun hplain p hp => Memory.endsInName_of_mem_dirsIn hplain hp⟩
    rw [listDirs_star, query, Memory.listDirs_of_isDir hdir]
  | disk d =>
    obtain ⟨place, hfind⟩ := Disk.find_of_isDir (d := d) (Except.of_mapError_ok h)
    refine ⟨_, _, ?_, Disk.subdirs_of_find hs hfind, Disk.named_child hs dir place, fun _ p hp => ?_⟩
    · rw [listDirs_star, query, Disk.listDirs_of_find hs hfind]
      rfl
    · obtain ⟨name, hname, rfl⟩ := List.mem_map.1 hp
      exact Path.endsInName_child dir (Disk.Sorted.proper_of_mem_namesIn hs hname)

/-- There are none where there is no directory. -/
theorem subdirs_of_not_isDir (h : (isDir dir s).1 = .ok false) : Subdirs s dir [] := by
  refine ⟨.nil, fun name => ⟨nofun, fun hin => ?_⟩⟩
  cases s with
  | memory m =>
    have hdir : m.isDir dir = false := Except.ok.inj h
    rw [hin.1] at hdir
    cases hdir
  | disk d =>
    obtain ⟨place, hfind, -⟩ := hin
    exact absurd hfind (Disk.find_ne_directory (Except.of_mapError_ok h))

end Store
end AgentDocs
