import AgentDocs.Proofs.Generate.Commit
import AgentDocs.Proofs.Generate.Confined
import AgentDocs.Proofs.Store.Hindered

/-! # Removing stale files from a disk

An entry that leads to a file takes it away, with the directories around it in which nothing is left.
An entry that leads to nothing is passed over, unless a file is on the way to it: then the system does
not say that it is missing, and the whole sweep ends there. -/
namespace AgentDocs
open Effect Store Store.Disk

variable {root : Path} {d d' : Disk} {outer : Place} {entry : String}

/-! ## Directories around a file -/

/-- What becomes of the directories around a place: some that lie strictly inside of the root are gone,
and all else is as it was. -/
structure Pruned (root : Path) (outer : Place) (d d' : Disk) : Prop where
  tree : d'.IsTree
  entries : ∀ q, d'.entry? q = d.entry? q ∨
    d.entry? q = some .directory ∧ d'.entry? q = none ∧ q <+: outer ∧
      (pathTo q).isWithin root = true ∧ (pathTo q).same root = false

theorem find_of_directory (htree : d.IsTree) (hwords : AreWords outer) (hfits : Fits outer)
    (htext : checkText (pathTo outer) = .ok ()) (hdir : d.entry? outer = some .directory) :
    d.find (pathTo outer) = .ok (outer, .directory) := by
  have hwalk := walk_of_entry htree hwords hfits (by simp [hdir])
  rw [find_of_walk htext hwords hwalk, hdir]

theorem isDir_of_find (hfind : d.find (pathTo outer) = .ok (outer, .directory)) :
    Store.isDir (pathTo outer) (.disk d) = (.ok true, .disk d) := by
  simp only [Store.isDir, Store.exists?, query, Disk.exists?, hfind]
  rfl

theorem isEmptyDir_of_find (hfind : d.find (pathTo outer) = .ok (outer, .directory)) :
    ∃ empty, Store.isEmptyDir (pathTo outer) (.disk d) = (.ok empty, .disk d) ∧
      (empty = true ↔ d.Bare outer) := by
  obtain ⟨inside, hinside, hbare⟩ := children_of_find hfind
  have hchildren : Store.children (pathTo outer) (.disk d) = (.ok (inside.map (·.1)), .disk d) := by
    simp only [Store.children, query, hinside]
    rfl
  refine ⟨_, bind_ok hchildren, ?_⟩
  rw [← hbare, List.isEmpty_map]

/-- The root of the file system is not strictly inside of anything. -/
theorem stops_at_root (habs : root.isAbsolute = true) :
    ((pathTo []).same root || !(pathTo []).isWithin root) = true := by
  obtain ⟨rest, hrest⟩ := Path.isAbsolute_iff.1 habs
  have hparts : (pathTo []).parts = [.root] := by decide
  rw [Path.same, Path.isWithin, hparts, hrest]
  cases rest <;> rfl

/-- An empty directory strictly inside of the root goes, and the walk outwards goes on from there. -/
theorem pruneDirs_bare {outers : List Path} (hfind : d.find (pathTo outer) = .ok (outer, .directory))
    (hbare : d.Bare outer) (hremove : d.removeDir (pathTo outer) = .ok d')
    (hinside : ((pathTo outer).same root || !(pathTo outer).isWithin root) = false) :
    pruneDirs root (pathTo outer :: outers) (.disk d) = pruneDirs root outers (.disk d') := by
  obtain ⟨empty, hask, hempty⟩ := isEmptyDir_of_find hfind
  have hremove : Store.removeDir (pathTo outer) (.disk d) = (.ok (), .disk d') := by
    simp only [Store.removeDir, change, hremove]
  rw [hempty.2 hbare] at hask
  rw [pruneDirs, hinside, if_neg Bool.false_ne_true, bind_ok (isDir_of_find hfind)]
  exact (bind_ok hask).trans (bind_ok hremove)

theorem pruneDirs_stop {outers : List Path} (hfind : d.find (pathTo outer) = .ok (outer, .directory))
    (hbare : ¬d.Bare outer) :
    pruneDirs root (pathTo outer :: outers) (.disk d) = (.ok (), .disk d) := by
  obtain ⟨empty, hask, hempty⟩ := isEmptyDir_of_find hfind
  rw [Bool.eq_false_iff.2 fun htrue => hbare (hempty.1 htrue)] at hask
  rw [pruneDirs]
  split
  · rfl
  · rw [bind_ok (isDir_of_find hfind)]
    exact bind_ok hask

theorem Pruned.refl (root : Path) (outer : Place) (htree : d.IsTree) : Pruned root outer d d :=
  ⟨htree, fun _ => .inl rfl⟩

/-- What is erased stays away. -/
theorem Pruned.gone {name : String} (h : Pruned root outer (d.erase (outer ++ [name])) d') :
    d'.entry? (outer ++ [name]) = none := by
  have herase := @entry?_erase d (outer ++ [name]) (by simp) (outer ++ [name])
  rw [if_pos rfl] at herase
  rcases h.entries (outer ++ [name]) with hsame | ⟨_, hgone, _⟩
  · exact hsame.trans herase
  · exact hgone

/-- What was erased aside, more directories around it may go. -/
theorem Pruned.others {name : String} (h : Pruned root outer (d.erase (outer ++ [name])) d')
    {q : Place} (hq : q ≠ outer ++ [name]) : d'.entry? q = d.entry? q ∨
      d.entry? q = some .directory ∧ d'.entry? q = none ∧ q <+: outer ++ [name] ∧
        (pathTo q).isWithin root = true ∧ (pathTo q).same root = false := by
  have herase := @entry?_erase d (outer ++ [name]) (by simp) q
  rw [if_neg (Ne.symm hq)] at herase
  have hentries := h.entries q
  rw [herase] at hentries
  exact hentries.imp_right fun hlost =>
    ⟨hlost.1, hlost.2.1, hlost.2.2.1.trans (List.prefix_append _ _), hlost.2.2.2⟩

/-- An empty directory strictly inside of the root goes before the directories around it. -/
theorem Pruned.of_erase {name : String} (hdir : d.entry? (outer ++ [name]) = some .directory)
    (hinside : (pathTo (outer ++ [name])).isWithin root = true)
    (hroot : (pathTo (outer ++ [name])).same root = false)
    (h : Pruned root outer (d.erase (outer ++ [name])) d') : Pruned root (outer ++ [name]) d d' where
  tree := h.tree
  entries q := by
    by_cases hq : q = outer ++ [name]
    · subst hq
      exact .inr ⟨hdir, h.gone, List.prefix_refl _, hinside, hroot⟩
    · exact h.others hq

/-- From the inside out empty directories go, and this does not fail. -/
theorem exists_pruned (habs : root.isAbsolute = true) (htree : d.IsTree) (hwords : AreWords outer)
    (hfits : Fits outer) (htext : checkText (pathTo outer) = .ok ())
    (hdir : d.entry? outer = some .directory) :
    ∃ d', pruneDirs root (pathTo outer).ancestors (.disk d) = (.ok (), .disk d') ∧
      Pruned root outer d d' := by
  induction outer using List.reverseRecOn generalizing d with
  | nil =>
    refine ⟨d, ?_, .refl root [] htree⟩
    have hancestors : (pathTo []).ancestors = [pathTo []] := by
      rw [ancestors_eq hwords]
      exact congrArg _ (Path.outward_none rfl)
    rw [hancestors, pruneDirs, stops_at_root habs]
    rfl
  | append_singleton outer name ih =>
    rw [ancestors_pathTo hwords]
    have hfind := find_of_directory htree hwords hfits htext hdir
    by_cases hbare : d.Bare (outer ++ [name])
    · cases hinside : ((pathTo (outer ++ [name])).same root
          || !(pathTo (outer ++ [name])).isWithin root) with
      | true =>
        refine ⟨d, ?_, .refl root _ htree⟩
        rw [pruneDirs, hinside]
        rfl
      | false =>
        have hremove := removeDir_pathTo htree hwords hfits htext hdir hbare
        obtain ⟨d', hprune, hpruned⟩ := ih (htree.erase (by simp) hbare) hwords.append.1 hfits.around
          (checkText_pathTo htext) (htree.directory_erase (by simp [hdir]))
        rw [pruneDirs_bare hfind hbare hremove hinside]
        simp only [Bool.or_eq_false_iff, Bool.not_eq_false'] at hinside
        exact ⟨d', hprune, .of_erase hdir hinside.2 hinside.1 hpruned⟩
    · exact ⟨d, pruneDirs_stop hfind hbare, .refl root _ htree⟩

/-! ## One entry -/

/-- The place on a disk to which an entry leads. -/
def spotOf (root : Path) (entry : String) : Place := placeOn (placeOf root entry)

/-- What is accepted of a manifest leads to a place that has a name. -/
theorem exists_spotOf (habs : root.isAbsolute = true) (h : Manifest.isInside entry = true) :
    ∃ outer name, spotOf root entry = outer ++ [name] ∧ AreWords (outer ++ [name]) ∧
      placeOf root entry = pathTo (outer ++ [name]) := by
  obtain ⟨names, hn, hparts⟩ : (placeOf root entry).Rooted :=
    Path.rooted_normal (Path.isAbsolute_join habs)
  have hspot : spotOf root entry = names.map Part.text := by rw [spotOf, placeOn, hparts]; rfl
  have hpath : placeOf root entry = pathTo (names.map Part.text) := by
    have hnormal : placeOf root entry = Path.ofParts (placeOf root entry).parts := by
      rw [placeOf, Path.parts_normal, Path.normal]
    rw [hnormal, hparts]
    rfl
  have hne : names.map Part.text ≠ [] := by
    have hcontained := (Bool.and_eq_true_iff.1 h).2
    have hjoin := Path.parts_normal_join_of_isContained hcontained root
    obtain ⟨rest, hroot⟩ := Path.isAbsolute_iff.1 (Path.isAbsolute_normal habs)
    rw [← placeOf, hparts, hroot, List.cons_append, List.cons.injEq] at hjoin
    have hinside : (Path.mk entry).normal.parts ≠ [] := fun hnil => by
      simp [Path.isContained, hnil] at hcontained
    simp [hjoin.2, hinside]
  obtain ⟨outer, name, houter⟩ := (List.eq_nil_or_concat' _).resolve_left hne
  exact ⟨outer, name, hspot.trans houter, houter ▸ areWords_of_areNames hn, houter ▸ hpath⟩

/-- What becomes of a disk when the file at a place is removed: directories around it may go with it
that lie strictly inside of the root, and all else is as it was. -/
structure Cleared (root : Path) (place : Place) (d d' : Disk) : Prop where
  tree : d'.IsTree
  gone : d'.entry? place = none
  others : ∀ q, q ≠ place → d'.entry? q = d.entry? q ∨
    d.entry? q = some .directory ∧ d'.entry? q = none ∧ q <+: place ∧
      (pathTo q).isWithin root = true ∧ (pathTo q).same root = false

theorem Cleared.file_iff {place q : Place} {content : Content} (h : Cleared root place d d') :
    d'.entry? q = some (.file content) ↔ d.entry? q = some (.file content) ∧ place ≠ q := by
  by_cases hq : q = place
  · subst hq
    simp [h.gone]
  · rcases h.others q hq with hsame | ⟨hdir, hgone, _⟩
    · rw [hsame, and_iff_left (Ne.symm hq)]
    · simp [hdir, hgone]

/-- A file that is found is removed. -/
theorem exists_cleared (habs : root.isAbsolute = true) (htree : d.IsTree) {name : String}
    (hwords : AreWords (outer ++ [name])) (hopen : d.Open (outer ++ [name])) {content : Content}
    (hfile : d.entry? (outer ++ [name]) = some (.file content)) :
    ∃ d', Store.remove (pathTo (outer ++ [name])) (.disk d)
        = (.ok (), .disk (d.erase (outer ++ [name]))) ∧
      pruneDirs root (pathTo (outer ++ [name])).ancestors.tail (.disk (d.erase (outer ++ [name])))
        = (.ok (), .disk d') ∧
      Cleared root (outer ++ [name]) d d' := by
  have hsome : d.entry? (outer ++ [name]) ≠ none := by simp [hfile]
  have hremove : Store.remove (pathTo (outer ++ [name])) (.disk d)
      = (.ok (), .disk (d.erase (outer ++ [name]))) := by
    simp only [Store.remove, change, remove_pathTo htree hwords hopen hfile]
  obtain ⟨d', hprune, hpruned⟩ := exists_pruned habs
    (htree.erase (by simp) (bare_of_file htree hfile)) hwords.append.1 (hopen.fits htree hsome).around
    (checkText_pathTo hopen.text) (htree.directory_erase hsome)
  refine ⟨d', hremove, ?_, hpruned.tree, hpruned.gone, fun q => hpruned.others⟩
  rw [ancestors_pathTo hwords]
  exact hprune

/-! ## A sweep -/

/-- How a sweep over a disk goes, entry by entry. -/
inductive Sweeping (root : Path) :
    Disk → List String → Except Store.Error (List String) → Disk → Prop
  | done (d : Disk) : Sweeping root d [] (.ok []) d
  /-- Nothing is there, or a directory. -/
  | skip {d d' : Disk} {entry : String} {entries : List String}
      {result : Except Store.Error (List String)} :
      d.Open (spotOf root entry) →
      (∀ content, d.entry? (spotOf root entry) ≠ some (.file content)) →
      Sweeping root d entries result d' → Sweeping root d (entry :: entries) result d'
  /-- A file is there, and it is removed. -/
  | remove {d d₁ d' : Disk} {entry : String} {entries : List String}
      {result : Except Store.Error (List String)} {content : Content} :
      d.Open (spotOf root entry) → d.entry? (spotOf root entry) = some (.file content) →
      Cleared root (spotOf root entry) d d₁ → Sweeping root d₁ entries result d' →
      Sweeping root d (entry :: entries) (result.map (entry :: ·)) d'
  /-- Something is in the way, and the sweep ends. -/
  | hindered {d : Disk} {entry : String} (entries : List String) {fault : Fault} :
      d.Hindered (spotOf root entry) fault →
      Sweeping root d (entry :: entries) (.error (.ofFault (placeOf root entry) fault)) d

theorem exists_sweeping (habs : root.isAbsolute = true) (htree : d.IsTree) {entries : List String}
    (hentries : ∀ entry ∈ entries, Manifest.isInside entry = true) :
    ∃ result d', removeStale root entries (.disk d) = (result, .disk d') ∧
      Sweeping root d entries result d' ∧ d'.IsTree := by
  induction entries generalizing d with
  | nil => exact ⟨.ok [], d, rfl, .done d, htree⟩
  | cons entry entries ih =>
    obtain ⟨hentry, hrest⟩ := List.forall_mem_cons.1 hentries
    obtain ⟨outer, name, hspot, hwords, hpath⟩ := exists_spotOf habs hentry
    by_cases hopen : d.Open (outer ++ [name])
    · by_cases hfile : ∃ content, d.entry? (outer ++ [name]) = some (.file content)
      · obtain ⟨content, hfile⟩ := hfile
        have hask : Store.isFile (placeOf root entry) (.disk d) = (.ok true, .disk d) := by
          simp only [Store.isFile, Store.exists?, query, hpath,
            hopen.exists?_of_file htree hwords hfile, Except.mapError]
        obtain ⟨d₁, hremove, hprune, hcleared⟩ := exists_cleared habs htree hwords hopen hfile
        rw [← hpath] at hremove hprune
        obtain ⟨result, d', hrun, hsweeping, htree'⟩ := ih hcleared.tree hrest
        rw [removeStale_remove hask hremove hprune, hrun]
        exact ⟨_, d', rfl, .remove (hspot ▸ hopen) (hspot ▸ hfile) (hspot ▸ hcleared) hsweeping,
          htree'⟩
      · have hno := not_exists.1 hfile
        have hask : Store.isFile (placeOf root entry) (.disk d) = (.ok false, .disk d) := by
          simp only [Store.isFile, Store.exists?, query, hpath,
            hopen.exists?_of_not_file htree hwords hno, Except.mapError]
        obtain ⟨result, d', hrun, hsweeping, htree'⟩ := ih htree hrest
        rw [removeStale_skip hask, hrun]
        exact ⟨result, d', rfl, .skip (hspot ▸ hopen) (hspot ▸ hno) hsweeping, htree'⟩
    · obtain ⟨fault, hfault⟩ := not_forall_not.1 hopen
      have hask : Store.isFile (placeOf root entry) (.disk d)
          = (.error (.ofFault (placeOf root entry) fault), .disk d) := by
        simp only [Store.isFile, Store.exists?, query, hpath,
          exists?_of_hindered htree hwords hfault, Except.mapError]
      rw [removeStale_fail hask]
      exact ⟨_, d, rfl, .hindered entries (hspot ▸ hfault), htree⟩

/-- What a sweep to the end has removed: the files to which entries lead, and no others. -/
structure Removed (root : Path) (d : Disk) (entries deleted : List String) (d' : Disk) : Prop where
  reported : deleted.Sublist entries
  wereFiles : ∀ entry ∈ deleted, ∃ content, d.entry? (spotOf root entry) = some (.file content)
  files : ∀ q content, d'.entry? q = some (.file content) ↔
    d.entry? q = some (.file content) ∧ ∀ entry ∈ entries, spotOf root entry ≠ q

/-- Whether each file on the way to an entry is one to which an entry before it leads. -/
def WaysClear (root : Path) (d : Disk) (entries : List String) : Prop :=
  ∀ front entry behind, entries = front ++ entry :: behind → ∀ q content,
    q <+: spotOf root entry → q ≠ spotOf root entry → d.entry? q = some (.file content) →
    ∃ other ∈ front, spotOf root other = q

variable {entries deleted : List String} {result : Except Store.Error (List String)}

theorem waysClear_cons {d₁ : Disk} (hfiles : ∀ q content, d₁.entry? q = some (.file content) ↔
      d.entry? q = some (.file content) ∧ spotOf root entry ≠ q) :
    WaysClear root d (entry :: entries) ↔
      (∀ q content, q <+: spotOf root entry → q ≠ spotOf root entry →
        d.entry? q ≠ some (.file content)) ∧ WaysClear root d₁ entries := by
  constructor
  · refine fun h => ⟨fun q content hq hne hfile => ?_, ?_⟩
    · obtain ⟨other, hother, _⟩ := h [] entry entries rfl q content hq hne hfile
      cases hother
    · intro front e behind heq q content hq hne hfile
      obtain ⟨hfile, hother⟩ := (hfiles q content).1 hfile
      obtain ⟨other, hmem, hspot⟩ :=
        h (entry :: front) e behind (by rw [heq]; rfl) q content hq hne hfile
      rcases List.mem_cons.1 hmem with rfl | hmem
      · exact absurd hspot hother
      · exact ⟨other, hmem, hspot⟩
  · rintro ⟨hfirst, hrest⟩ front e behind heq q content hq hne hfile
    obtain ⟨rfl, hcons⟩ | ⟨front, rfl, rfl⟩ := List.cons_eq_append_iff.1 heq
    · obtain ⟨rfl, -⟩ := List.cons.inj hcons
      exact absurd hfile (hfirst q content hq hne)
    · by_cases hspot : spotOf root entry = q
      · exact ⟨entry, List.mem_cons_self, hspot⟩
      · obtain ⟨other, hmem, hother⟩ := hrest front e behind rfl q content hq hne
          ((hfiles q content).2 ⟨hfile, hspot⟩)
        exact ⟨other, List.mem_cons_of_mem _ hmem, hother⟩

namespace Sweeping

theorem removed (h : Sweeping root d entries result d') (hok : result = .ok deleted) :
    Removed root d entries deleted d' := by
  induction h generalizing deleted with
  | done d =>
    cases hok
    exact ⟨.refl _, List.forall_mem_nil _, by simp⟩
  | @skip d d' entry entries result _ hno _ ih =>
    obtain ⟨hreported, hfiles, hafter⟩ := ih hok
    refine ⟨hreported.cons entry, hfiles, fun q content => ?_⟩
    rw [hafter, List.forall_mem_cons]
    refine and_congr_right fun hfile => (and_iff_right ?_).symm
    rintro rfl
    exact hno content hfile
  | @remove d d₁ d' entry entries result content _ hfile hcleared _ ih =>
    cases result with
    | error e => cases hok
    | ok rest =>
      cases hok
      obtain ⟨hreported, hfiles, hafter⟩ := ih rfl
      refine ⟨hreported.cons_cons entry, List.forall_mem_cons.2 ⟨⟨content, hfile⟩, ?_⟩, ?_⟩
      · intro other hother
        obtain ⟨content, hcontent⟩ := hfiles other hother
        exact ⟨content, (hcleared.file_iff.1 hcontent).1⟩
      · intro q content
        rw [hafter, hcleared.file_iff, List.forall_mem_cons, and_assoc]
  | hindered => cases hok

/-- Where the system takes all places, a sweep comes to its end unless a file is on the way. -/
theorem ok_iff (h : Sweeping root d entries result d')
    (htaken : ∀ entry ∈ entries, Taken (spotOf root entry)) :
    (∃ deleted, result = .ok deleted) ↔ WaysClear root d entries := by
  induction h with
  | done d =>
    refine iff_of_true ⟨[], rfl⟩ fun front entry behind heq => ?_
    exact absurd heq.symm (by simp)
  | @skip d d' entry entries result hopen hno _ ih =>
    obtain ⟨hentry, hrest⟩ := List.forall_mem_cons.1 htaken
    have hfiles : ∀ q content, d.entry? q = some (.file content) ↔
        d.entry? q = some (.file content) ∧ spotOf root entry ≠ q := fun q content =>
      (and_iff_left_of_imp fun hfile => by rintro rfl; exact hno content hfile).symm
    rw [waysClear_cons hfiles, ih hrest, and_iff_right ((open_iff_of_taken hentry).1 hopen)]
  | @remove d d₁ d' entry entries result content hopen hfile hcleared _ ih =>
    obtain ⟨hentry, hrest⟩ := List.forall_mem_cons.1 htaken
    rw [waysClear_cons fun q content => hcleared.file_iff, ← ih hrest,
      and_iff_right ((open_iff_of_taken hentry).1 hopen)]
    cases result <;> simp [Except.map]
  | @hindered d entry entries fault hfault =>
    obtain ⟨hentry, hrest⟩ := List.forall_mem_cons.1 htaken
    refine iff_of_false (fun ⟨_, hok⟩ => nomatch hok) fun hclear => ?_
    refine (open_iff_of_taken hentry).2 (fun q content hq hne hfile => ?_) fault hfault
    obtain ⟨other, hother, _⟩ := hclear [] entry entries rfl q content hq hne hfile
    cases hother

end Sweeping

/-- A sweep over a disk removes the files to which entries lead and passes over the entries that lead
to none. It fails only where something is on the way to an entry; if the system takes all names, that
is a file to which no entry before leads. -/
theorem sweeping_of_removeStale (habs : root.isAbsolute = true) (htree : d.IsTree)
    (hentries : ∀ entry ∈ entries, Manifest.isInside entry = true) :
    ∃ result d', removeStale root entries (.disk d) = (result, .disk d') ∧ d'.IsTree ∧
      Sweeping root d entries result d' ∧
      ((∀ entry ∈ entries, Taken (spotOf root entry)) →
        ((∃ deleted, result = .ok deleted) ↔ WaysClear root d entries)) ∧
      ∀ deleted, result = .ok deleted → Removed root d entries deleted d' := by
  obtain ⟨result, d', hrun, hsweeping, htree'⟩ := exists_sweeping habs htree hentries
  exact ⟨result, d', hrun, htree', hsweeping, hsweeping.ok_iff, fun _ => hsweeping.removed⟩

/-- A file in the place of a directory. -/
def fileForDirectory : Disk :=
  ⟨[(["work"], .directory), (["work", "a"], .file (.text "x")), (["work", "b"], .directory)], ["work"]⟩

theorem isTree_fileForDirectory : fileForDirectory.IsTree where
  rooted e h := by simp [fileForDirectory] at h
  around place name e h := by
    simp only [fileForDirectory, List.mem_cons, Prod.mk.injEq, List.not_mem_nil, or_false] at h
    rcases h with ⟨h, _⟩ | ⟨h, _⟩ | ⟨h, _⟩
    all_goals
      have hplace := congrArg List.dropLast h
      rw [List.dropLast_concat] at hplace
      rw [hplace]
      rfl

/-- The file goes first; then nothing is at the other places, and nothing is on the way to them. -/
theorem sweeping_fileForDirectory :
    ∃ d', removeStale ⟨"/work"⟩ ["a", "a/b.md", "b/c.md"] (.disk fileForDirectory)
        = (.ok ["a"], .disk d') ∧
      WaysClear ⟨"/work"⟩ fileForDirectory ["a", "a/b.md", "b/c.md"] ∧
      Removed ⟨"/work"⟩ fileForDirectory ["a", "a/b.md", "b/c.md"] ["a"] d' := by
  have hok : (removeStale ⟨"/work"⟩ ["a", "a/b.md", "b/c.md"] (.disk fileForDirectory)).1
      = .ok ["a"] := by decide +kernel
  obtain ⟨result, d', hrun, _, _, hiff, hremoved⟩ :=
    @sweeping_of_removeStale ⟨"/work"⟩ fileForDirectory ["a", "a/b.md", "b/c.md"] (by decide)
      isTree_fileForDirectory (by decide +kernel)
  rw [hrun] at hok
  have hresult : result = .ok ["a"] := hok
  have htaken : ∀ entry ∈ ["a", "a/b.md", "b/c.md"], Taken (spotOf ⟨"/work"⟩ entry) := by
    decide +kernel
  exact ⟨d', hresult ▸ hrun, (hiff htaken).1 ⟨_, hresult⟩, hremoved _ hresult⟩

/-- Where the file stays, the system answers that a path goes through it; in memory the place is just
empty. -/
theorem file_for_directory_hinders :
    fileForDirectory.IsTree ∧ Manifest.isInside "a/b.md" = true ∧
      fileForDirectory.entry? ["work", "a", "b.md"] = none ∧
      (removeStale ⟨"/work"⟩ ["a/b.md"] (.disk fileForDirectory)).1
        = .error (.io ⟨"/work/a/b.md"⟩ .notADirectory) ∧
      (removeStale ⟨"/work"⟩ ["a/b.md"]
        (.memory (Memory.put .empty ⟨"/work/a"⟩ (.text "x")))).1 = .ok [] :=
  ⟨isTree_fileForDirectory, by decide +kernel⟩

end AgentDocs
