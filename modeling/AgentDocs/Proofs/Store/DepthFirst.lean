import AgentDocs.Proofs.Store.Forest
import AgentDocs.Proofs.Store.Overlap

/-! # Files are listed depth first

A store that is a tree has a forest in each of its directories. The files that are listed in a
directory are those that a walk through this forest reaches, in the order of the walk. In memory the
files are kept in the order of their paths and no directory is ever walked through, but part by part
this is the same order, since a slash is no character of a name. So two stores with the same forest
list the same files in the same order. -/
namespace AgentDocs.Store
open Text

def Entry.kind : Entry → Kind
  | .file _ => .file
  | .directory => .directory

/-- The parts of a place inside of a directory. -/
def partsBelow (dir : Path) (place : Place) : List Part := dir.parts ++ place.map .name

/-! ## Lists of paths -/

/-- Whether two lists have the same paths, in any spelling. -/
def SameParts (as bs : List Path) : Prop := List.Forall₂ (fun p q => p.parts = q.parts) as bs

namespace SameParts
variable {as bs : List Path}

theorem filter (h : SameParts as bs) {P : Path → Bool} (hP : ∀ p q, p.parts = q.parts → P p = P q) :
    SameParts (as.filter P) (bs.filter P) :=
  List.rel_filter (fun p q hpq => Bool.eq_iff_iff.1 (hP p q hpq)) h

theorem map_eq (h : SameParts as bs) {β : Type} {f : Path → β}
    (hf : ∀ p q, p.parts = q.parts → f p = f q) : as.map f = bs.map f := by
  have hmap : List.Forall₂ (· = ·) (as.map f) (bs.map f) :=
    List.forall₂_map_left_iff.2 (List.forall₂_map_right_iff.2 (h.imp hf))
  rwa [List.forall₂_eq_eq_eq] at hmap

theorem of_map_eq (h : as.map Path.parts = bs.map Path.parts) : SameParts as bs := by
  rw [← List.forall₂_eq_eq_eq, List.forall₂_map_left_iff, List.forall₂_map_right_iff] at h
  exact h

end SameParts

/-- Two lists in one order with the same elements are equal. -/
theorem eq_of_ordered {α : Type} {r : α → α → Prop} (hself : ∀ a, ¬r a a)
    (htrans : ∀ a b c, r a b → r b c → r a c) {xs ys : List α} (hxs : xs.Pairwise r)
    (hys : ys.Pairwise r) (h : ∀ a, a ∈ xs ↔ a ∈ ys) : xs = ys := by
  have hnodup {zs : List α} (hzs : zs.Pairwise r) : zs.Nodup :=
    List.Pairwise.imp (fun {a b} hab (heq : a = b) => hself b (by rwa [heq] at hab)) hzs
  refine List.Perm.eq_of_pairwise (fun a b _ _ hab hba => ?_) hxs hys
    ((List.perm_ext_iff_of_nodup (hnodup hxs) (hnodup hys)).2 fun a => h a)
  exact absurd (htrans a b a hab hba) (hself a)

theorem not_listBefore_self (ps : List Part) : ¬Part.listBefore ps ps = true := by
  induction ps with
  | nil => nofun
  | cons part ps ih => rwa [Part.listBefore, if_pos rfl]

theorem listBefore_partsBelow (dir : Path) (a b : Place) :
    Part.listBefore (partsBelow dir a) (partsBelow dir b) = placeBefore a b := by
  rw [partsBelow, partsBelow, Part.listBefore_append, listBefore_names]

/-! ## Stores with a forest -/

/-- Whether in a directory of a store in memory there is what a forest says, and nothing else. -/
structure Memory.Bears (m : Memory) (dir : Path) (forest : Forest) : Prop where
  isDir : m.isDir dir = true
  file_iff : ∀ ps, (∃ p, m.isFile p = true ∧ p.parts = dir.parts ++ ps) ↔
    ∃ place, ps = place.map .name ∧ forest.kind? place = some .file
  dir_iff : ∀ ps, ps ≠ [] → ((∃ p, m.isDir p = true ∧ p.parts = dir.parts ++ ps) ↔
    ∃ place, ps = place.map .name ∧ forest.kind? place = some .directory)

structure Disk.Bears (d : Disk) (dir : Path) (forest : Forest) : Prop where
  /-- The root is no entry. -/
  rooted : ∀ e, ([], e) ∉ d.entries
  kinds : ∃ base, d.find dir = .ok (base, .directory) ∧
    ∀ place, place ≠ [] → (d.entry? (base ++ place)).map Entry.kind = forest.kind? place

/-- Whether in a directory of a store there is what a forest says, and nothing else. -/
def Bears (dir : Path) (forest : Forest) : Store → Prop
  | .memory m => m.Bears dir forest
  | .disk d => d.Bears dir forest

/-- Whether a store in memory is a tree in a directory: directories around everything, no path both a
file and a directory, and nothing but names below. -/
structure Memory.IsTree (m : Memory) (dir : Path) : Prop where
  named : ∀ p ps, m.Holds p → p.parts = dir.parts ++ ps → ∃ place : Place, ps = place.map .name
  around : ∀ p place name, m.Holds p → p.parts = partsBelow dir (place ++ [name]) →
    ∃ d, m.isDir d = true ∧ d.parts = partsBelow dir place
  unmixed : ∀ p, p.isWithin dir = true → m.isFile p = true → m.isDir p = false

structure Disk.IsTree (d : Disk) : Prop where
  rooted : ∀ e, ([], e) ∉ d.entries
  around : ∀ place name e, (place ++ [name], e) ∈ d.entries → d.entry? place = some .directory

/-- Whether a store is a tree in a directory. -/
def IsTree (dir : Path) : Store → Prop
  | .memory m => m.IsTree dir
  | .disk d => d.IsTree

/-! ## The forest of a directory -/

namespace Memory
variable {m : Memory} {dir : Path} {forest : Forest}

/-- What stands at a place inside of a directory; a file counts before a directory. -/
def layout (m : Memory) (dir : Path) (place : Place) : Option Kind :=
  if (PathMap.keys m.files).any (·.parts == partsBelow dir place) then some .file
  else if (PathMap.keys m.dirs).any (·.parts == partsBelow dir place) then some .directory
  else none

theorem has_iff_any {α : Type} (files : PathMap α) (ps : List Part) :
    (PathMap.keys files).any (·.parts == ps) = true ↔ ∃ p, PathMap.has p files = true ∧ p.parts = ps := by
  simp only [List.any_eq_true, beq_iff_eq]
  constructor
  · rintro ⟨p, hp, rfl⟩
    exact ⟨p, PathMap.has_iff_exists_mem.2 ⟨p, hp, rfl⟩, rfl⟩
  · rintro ⟨p, hp, rfl⟩
    exact PathMap.has_iff_exists_mem.1 hp

theorem layout_eq_file_iff {place : Place} :
    m.layout dir place = some .file ↔ ∃ p, m.isFile p = true ∧ p.parts = partsBelow dir place := by
  have hfile := has_iff_any m.files (partsBelow dir place)
  rw [layout]
  refine Iff.trans ?_ hfile
  split
  · simp [*]
  · split <;> simp [*]

theorem layout_ne_none_iff {place : Place} :
    m.layout dir place ≠ none ↔ ∃ p, m.Holds p ∧ p.parts = partsBelow dir place := by
  have hfile := has_iff_any m.files (partsBelow dir place)
  have hdir := has_iff_any m.dirs (partsBelow dir place)
  simp only [Holds, or_and_right, exists_or]
  rw [layout]
  refine Iff.trans ?_ (or_congr hfile hdir)
  split
  · simp [*]
  · split <;> simp [*]

theorem layout_eq_directory_iff (h : m.IsTree dir) {place : Place} :
    m.layout dir place = some .directory
      ↔ ∃ p, m.isDir p = true ∧ p.parts = partsBelow dir place := by
  constructor
  · intro hkind
    obtain ⟨p, hp, hparts⟩ := layout_ne_none_iff.1 (by rw [hkind]; nofun)
    rcases hp with hfile | hdir
    · rw [layout_eq_file_iff.2 ⟨p, hfile, hparts⟩] at hkind
      cases hkind
    · exact ⟨p, hdir, hparts⟩
  · rintro ⟨p, hdir, hparts⟩
    cases hkind : m.layout dir place with
    | none => exact absurd hkind (layout_ne_none_iff.2 ⟨p, .inr hdir, hparts⟩)
    | some kind =>
      cases kind with
      | directory => rfl
      | file =>
        obtain ⟨q, hfile, hq⟩ := layout_eq_file_iff.1 hkind
        have hwithin : q.isWithin dir = true := List.isPrefixOf_iff_prefix.2 ⟨_, hq.symm⟩
        have hnot := h.unmixed q hwithin hfile
        rw [isDir_of_parts (hq.trans hparts.symm), hdir] at hnot
        cases hnot

theorem treelike_layout (h : m.IsTree dir) : Treelike (m.layout dir) := by
  intro place name _ hkind
  obtain ⟨p, hp, hparts⟩ := layout_ne_none_iff.1 hkind
  exact (layout_eq_directory_iff h).2 (h.around p place name hp hparts)

/-- All that stands somewhere is made of the names that a store has. -/
theorem finite_layout {place : Place} (h : m.layout dir place ≠ none) :
    place.length ≤ ((PathMap.keys m.files ++ PathMap.keys m.dirs).flatMap Path.parts).length ∧
      ∀ name ∈ place,
        name ∈ ((PathMap.keys m.files ++ PathMap.keys m.dirs).flatMap Path.parts).map Part.text := by
  obtain ⟨p, hp, hparts⟩ := layout_ne_none_iff.1 h
  obtain ⟨q, hq, hsame⟩ := holds_iff_exists_mem.1 hp
  have hqparts : q.parts = dir.parts ++ place.map .name := hsame.trans hparts
  have hsub : (place.map Part.name).Sublist
      ((PathMap.keys m.files ++ PathMap.keys m.dirs).flatMap Path.parts) := by
    refine List.Sublist.trans ?_ (List.sublist_flatten_of_mem (List.mem_map_of_mem hq))
    rw [hqparts]
    exact List.sublist_append_right _ _
  refine ⟨by simpa using hsub.length_le, fun name hname => ?_⟩
  exact List.mem_map.2 ⟨.name name, hsub.subset (List.mem_map_of_mem hname), rfl⟩

/-- What is of one kind in a directory stands where its forest has that kind. -/
theorem exists_iff_exists_place (h : m.IsTree dir) {has : Path → Bool} {kind : Kind}
    (hholds : ∀ p, has p = true → m.Holds p)
    (hlayout : ∀ place, m.layout dir place = some kind ↔
      ∃ p, has p = true ∧ p.parts = partsBelow dir place)
    (hkinds : ∀ place, place ≠ [] → forest.kind? place = m.layout dir place)
    {ps : List Part} (hne : ps ≠ []) :
    (∃ p, has p = true ∧ p.parts = dir.parts ++ ps) ↔
      ∃ place, ps = place.map .name ∧ forest.kind? place = some kind := by
  constructor
  · intro ⟨p, hp, hparts⟩
    obtain ⟨place, rfl⟩ := h.named p ps (hholds p hp) hparts
    have hplace : place ≠ [] := by simpa using hne
    exact ⟨place, rfl, (hkinds place hplace).trans ((hlayout place).2 ⟨p, hp, hparts⟩)⟩
  · intro ⟨place, heq, hkind⟩
    have hplace : place ≠ [] := by
      rw [heq] at hne
      simpa using hne
    rw [heq]
    exact (hlayout place).1 ((hkinds place hplace).symm.trans hkind)

theorem exists_bears (h : m.IsTree dir) (hdir : m.isDir dir = true) :
    ∃ forest : Forest, forest.InByteOrder ∧ m.Bears dir forest := by
  obtain ⟨forest, hforest, hkinds⟩ := exists_forest (treelike_layout h) fun _ => finite_layout
  refine ⟨forest, hforest, hdir, fun ps => ?_, fun ps hne => ?_⟩
  · by_cases hne : ps = []
    · -- The directory itself is no file, and a forest has nothing at its own place.
      rw [hne]
      refine iff_of_false (fun ⟨p, hfile, hparts⟩ => ?_) fun ⟨place, hplace, hkind⟩ => ?_
      · have hnot := h.unmixed p (List.isPrefixOf_iff_prefix.2 ⟨_, hparts.symm⟩) hfile
        rw [isDir_of_parts (hparts.trans (List.append_nil _)), hdir] at hnot
        cases hnot
      · rw [List.map_eq_nil_iff.1 hplace.symm, Forest.kind?_nil_place] at hkind
        cases hkind
    · exact exists_iff_exists_place h (fun _ => .inl) (fun _ => layout_eq_file_iff) hkinds hne
  · exact exists_iff_exists_place h (fun _ => .inr) (fun _ => layout_eq_directory_iff h) hkinds hne

/-- Absolute paths of names, with directories around them, are a tree in each directory. -/
theorem isTree_of_closed (hclosed : m.Closed) (hunmixed : m.Unmixed)
    (hnamed : ∀ p, m.Holds p → ∃ place : Place, p.parts = .root :: place.map .name)
    (hdir : m.isDir dir = true) : m.IsTree dir where
  named p ps hp hparts := by
    obtain ⟨names, hnames⟩ := hnamed p hp
    obtain ⟨front, hfront⟩ := hnamed dir (.inr hdir)
    rw [hnames, hfront, List.cons_append] at hparts
    obtain ⟨_, place, _, _, hplace⟩ := List.map_eq_append_iff.1 (List.cons.inj hparts).2
    exact ⟨place, hplace.symm⟩
  around p place name hp hparts := by
    obtain ⟨names, hnames⟩ := hnamed p hp
    obtain ⟨front, hfront⟩ := hnamed dir (.inr hdir)
    have habs : p.isAbsolute = true := Path.isAbsolute_iff.2 ⟨_, hnames⟩
    have hpre : partsBelow dir place <+: p.parts := ⟨[.name name], by simp [hparts, partsBelow]⟩
    have hne : partsBelow dir place ≠ [] := by simp [partsBelow, hfront]
    obtain ⟨d, hd, hdparts⟩ := (Path.exists_mem_ancestors_iff habs).2 ⟨hne, hpre⟩
    refine ⟨d, ?_, hdparts⟩
    rcases Path.mem_ancestors.1 hd with rfl | hd
    · rw [hdparts, partsBelow, partsBelow, List.append_cancel_left_eq] at hparts
      exact absurd (congrArg List.length hparts) (by simp)
    · exact hclosed.ancestors habs hp d hd
  unmixed p _ := hunmixed p

end Memory

namespace Disk
variable {d : Disk} {dir : Path} {forest : Forest} {base place : Place}

theorem entry?_of_find {e : Entry} (h : d.find dir = .ok (base, e)) : d.entry? base = some e := by
  obtain ⟨_, _, h⟩ := Except.exists_of_bind_ok h
  obtain ⟨place, _, h⟩ := Except.exists_of_bind_ok h
  split at h
  · rename_i hentry
    cases h
    exact hentry
  · cases h

theorem treelike_entries (h : d.IsTree) (hs : d.Sorted) (base : Place) :
    Treelike fun place => (d.entry? (base ++ place)).map Entry.kind := by
  intro place name hne hkind
  obtain ⟨e, he⟩ := Option.ne_none_iff_exists'.1 (Option.map_eq_none_iff.not.1 hkind)
  have hmem := (hs.has_iff_mem (by simp)).1 he
  rw [← List.append_assoc] at hmem
  show (d.entry? (base ++ place)).map Entry.kind = _
  rw [h.around _ _ _ hmem]
  rfl

theorem finite_entries (hs : d.Sorted) (hkind : (d.entry? (base ++ place)).map Entry.kind ≠ none) :
    place.length ≤ (d.entries.flatMap Prod.fst).length ∧
      ∀ name ∈ place, name ∈ d.entries.flatMap Prod.fst := by
  obtain ⟨e, he⟩ := Option.ne_none_iff_exists'.1 (Option.map_eq_none_iff.not.1 hkind)
  by_cases hne : base ++ place = []
  · obtain ⟨rfl, rfl⟩ := List.append_eq_nil_iff.1 hne
    exact ⟨Nat.zero_le _, List.forall_mem_nil _⟩
  · have hsub : place.Sublist (d.entries.flatMap Prod.fst) :=
      (List.sublist_append_right base place).trans
        (List.sublist_flatten_of_mem (List.mem_map_of_mem ((hs.has_iff_mem hne).1 he)))
    exact ⟨hsub.length_le, fun name hname => hsub.subset hname⟩

theorem exists_bears (h : d.IsTree) (hs : d.Sorted) (hfind : d.find dir = .ok (base, .directory)) :
    ∃ forest : Forest, forest.InByteOrder ∧ d.Bears dir forest := by
  obtain ⟨forest, hforest, hkinds⟩ :=
    exists_forest (treelike_entries h hs base) fun _ => finite_entries hs
  exact ⟨forest, hforest, h.rooted, base, hfind, fun place hne => (hkinds place hne).symm⟩

end Disk

/-! ## Listed files -/

/-- The files that a walk reaches from a directory. -/
def walked (dir : Path) (forest : Forest) : List Path := forest.walk.map fun place =>
  place.foldl Path.child dir

namespace Memory
variable {m : Memory} {dir : Path} {forest : Forest}

theorem Bears.words (h : m.Bears dir forest) {place : Place}
    (hkind : forest.kind? place = some .file) : AreWords place := by
  obtain ⟨p, _, hparts⟩ := (h.file_iff _).2 ⟨place, rfl, hkind⟩
  intro name hname
  refine Path.proper_of_mem_parts (p := p) ?_
  rw [hparts]
  exact List.mem_append_right _ (List.mem_map_of_mem hname)

/-- The files in a directory are the files of the walk, and in the same order. -/
theorem Bears.alike (h : m.Bears dir forest) (hforest : forest.InByteOrder)
    (hs : PathMap.Sorted m.files) :
    SameParts ((PathMap.keys m.files).filter (·.isWithin dir)) (walked dir forest) := by
  have hwalked : (walked dir forest).map Path.parts = forest.walk.map (partsBelow dir) := by
    rw [walked, List.map_map]
    refine List.map_congr_left fun place hplace => ?_
    exact parts_foldl_child (h.words ((Forest.mem_walk_iff hforest).1 hplace)) dir
  refine .of_map_eq (Eq.trans ?_ hwalked.symm)
  refine eq_of_ordered (r := fun a b => Part.listBefore a b = true) not_listBefore_self
    (fun _ _ _ => Part.listBefore_trans) (List.pairwise_map.2 ?_) (List.pairwise_map.2 ?_) fun ps => ?_
  · have hkeys : (PathMap.keys m.files).Pairwise fun p q => p.before q = true := List.pairwise_map.2 hs
    exact hkeys.filter _
  · exact (Forest.sorted_walk hforest).imp fun hab => by rwa [listBefore_partsBelow]
  · simp only [List.mem_map, List.mem_filter, Forest.mem_walk_iff hforest]
    constructor
    · rintro ⟨p, ⟨hp, hwithin⟩, rfl⟩
      obtain ⟨ps, hps⟩ := List.isPrefixOf_iff_prefix.1 hwithin
      have hfile : m.isFile p = true := PathMap.has_iff_exists_mem.2 ⟨p, hp, rfl⟩
      obtain ⟨place, rfl, hkind⟩ := (h.file_iff ps).1 ⟨p, hfile, hps.symm⟩
      exact ⟨place, hkind, hps⟩
    · rintro ⟨place, hkind, rfl⟩
      obtain ⟨p, hfile, hparts⟩ := (h.file_iff _).2 ⟨place, rfl, hkind⟩
      obtain ⟨q, hq, hsame⟩ := PathMap.has_iff_exists_mem.1 hfile
      refine ⟨q, ⟨hq, List.isPrefixOf_iff_prefix.2 ?_⟩, hsame.trans hparts⟩
      exact ⟨_, (hsame.trans hparts).symm⟩

end Memory

namespace Disk
variable {d : Disk} {dir : Path} {forest : Forest} {base place : Place}

/-- The places of the files in a directory, from there. -/
def filesBelow (d : Disk) (base : Place) : List Place :=
  d.entries.filterMap fun e =>
    if e.2.kind = .file ∧ base <+: e.1 then some (e.1.drop base.length) else none

theorem walk_of_find (h : d.find dir = .ok (base, .directory)) :
    d.walk dir = .ok ((d.filesBelow base).map fun place => place.foldl Path.child dir) := by
  rw [walk, h, filesBelow, List.map_filterMap]
  refine congrArg Except.ok (List.filterMap_congr fun ⟨q, e⟩ _ => ?_)
  cases e <;> simp [Entry.kind, List.isPrefixOf_iff_prefix]

theorem mem_filesBelow_iff :
    place ∈ d.filesBelow base ↔ ∃ content, (base ++ place, .file content) ∈ d.entries := by
  rw [filesBelow, List.mem_filterMap]
  constructor
  · rintro ⟨⟨q, e⟩, hmem, hplace⟩
    obtain ⟨⟨hkind, inside, rfl⟩, hdrop⟩ := Option.ite_none_right_eq_some.1 hplace
    cases e with
    | directory => cases hkind
    | file content =>
      obtain rfl : inside = place := by simpa using hdrop
      exact ⟨content, hmem⟩
  · rintro ⟨content, hmem⟩
    exact ⟨_, hmem, by simp [Entry.kind]⟩

theorem sorted_filesBelow (hs : d.Sorted) (base : Place) :
    (d.filesBelow base).Pairwise fun a b => placeBefore a b = true := by
  refine hs.ordered.filterMap _ ?_
  rintro ⟨q, e⟩ ⟨q', e'⟩ hbefore a ha b hb
  obtain ⟨⟨-, inside, rfl⟩, hdrop⟩ := Option.ite_none_right_eq_some.1 ha
  obtain ⟨⟨-, inside', rfl⟩, hdrop'⟩ := Option.ite_none_right_eq_some.1 hb
  obtain rfl : inside = a := by simpa using hdrop
  obtain rfl : inside' = b := by simpa using hdrop'
  rwa [← listBefore_names, List.map_append, List.map_append, Part.listBefore_append,
    listBefore_names] at hbefore

/-- A place in a directory has a file where the forest has one; the directory is none. -/
theorem Bears.file_iff (h : d.Bears dir forest) (hs : d.Sorted)
    (hfind : d.find dir = .ok (base, .directory))
    (hkinds : ∀ place, place ≠ [] → (d.entry? (base ++ place)).map Entry.kind = forest.kind? place) :
    (∃ content, (base ++ place, .file content) ∈ d.entries) ↔ forest.kind? place = some .file := by
  by_cases hne : place = []
  · rw [hne, List.append_nil, Forest.kind?_nil_place]
    refine iff_of_false (fun ⟨content, hmem⟩ => ?_) nofun
    by_cases hbase : base = []
    · exact h.rooted _ (hbase ▸ hmem)
    · have hentry := entry?_of_find hfind
      rw [(hs.has_iff_mem hbase).2 hmem] at hentry
      cases hentry
  · rw [← hkinds place hne, Option.map_eq_some_iff]
    constructor
    · rintro ⟨content, hmem⟩
      exact ⟨_, (hs.has_iff_mem (by simp [hne])).2 hmem, rfl⟩
    · rintro ⟨e, hentry, hkind⟩
      cases e with
      | directory => cases hkind
      | file content => exact ⟨content, (hs.has_iff_mem (by simp [hne])).1 hentry⟩

theorem Bears.walk_eq (h : d.Bears dir forest) (hforest : forest.InByteOrder) (hs : d.Sorted) :
    d.walk dir = .ok (walked dir forest) := by
  obtain ⟨base, hfind, hkinds⟩ := h.kinds
  have hplaces : d.filesBelow base = forest.walk := by
    refine eq_of_ordered (r := fun a b => placeBefore a b = true)
      (fun place => Bool.eq_false_iff.1 (not_placeBefore_self place))
      (fun _ _ _ => placeBefore_trans) (sorted_filesBelow hs base) (Forest.sorted_walk hforest)
      fun place => ?_
    rw [mem_filesBelow_iff, Forest.mem_walk_iff hforest]
    exact h.file_iff hs hfind hkinds
  rw [walk_of_find hfind, hplaces, walked]

end Disk

variable {s : Store} {dir : Path} {forest : Forest}

/-- Each directory of a tree has a forest. -/
theorem exists_bears (hs : s.Sorted) (htree : s.IsTree dir) (hdir : (isDir dir s).1 = .ok true) :
    ∃ forest : Forest, forest.InByteOrder ∧ s.Bears dir forest := by
  cases s with
  | memory m => exact Memory.exists_bears htree (Except.ok.inj hdir)
  | disk d =>
    obtain ⟨base, hfind⟩ := Disk.find_of_isDir (d := d) (Except.of_mapError_ok hdir)
    exact Disk.exists_bears htree hs hfind

theorem nameAdmitted_congr (pieces : List Piece) {p q : Path} (h : p.parts = q.parts) :
    nameAdmitted pieces p = nameAdmitted pieces q := by
  rw [nameAdmitted, nameAdmitted, Path.fileName?, Path.fileName?, h]

/-- The files in a directory can be listed. They are those that a walk reaches and whose names are
instances of the pattern. -/
theorem exists_listFiles (hs : s.Sorted) (hforest : forest.InByteOrder) (h : s.Bears dir forest)
    {pattern : String} {pieces : List Piece} (hpattern : compile pattern = .ok pieces) :
    ∃ files, listFiles dir pattern s = (.ok files, s) ∧
      SameParts files ((walked dir forest).filter (nameAdmitted pieces)) := by
  have hlist : listFiles dir pattern s
      = query dir (·.listFiles dir pieces) (·.listFiles dir pieces) s := by
    rw [listFiles, hpattern]
    rfl
  rw [hlist]
  cases s with
  | memory m =>
    have hbears : m.Bears dir forest := h
    refine ⟨((PathMap.keys m.files).filter (·.isWithin dir)).filter (nameAdmitted pieces), ?_, ?_⟩
    · rw [query, Memory.listFiles, if_pos hbears.isDir, List.filter_filter]
      simp only [Bool.and_comm]
    · exact (hbears.alike hforest hs).filter fun p q => nameAdmitted_congr pieces
  | disk d =>
    have hbears : d.Bears dir forest := h
    refine ⟨_, ?_, List.forall₂_same.2 fun _ _ => rfl⟩
    rw [query, Disk.listFiles, hbears.walk_eq hforest hs]
    rfl

end AgentDocs.Store
