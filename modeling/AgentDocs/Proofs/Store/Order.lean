import AgentDocs.Proofs.Path.Order
import AgentDocs.Proofs.Store.Confined
import AgentDocs.Proofs.Store.Writable

/-! # The order of stored files

A store has its files in the order of their paths, and nothing that is done to a store changes this.
So files are listed in the order of their paths, in memory as on a disk. -/
namespace AgentDocs.Store
open Effect

theorem listBefore_names (a b : Place) :
    Part.listBefore (a.map .name) (b.map .name) = placeBefore a b := by
  induction a generalizing b with
  | nil => cases b <;> rfl
  | cons x a ih =>
    cases b with
    | nil => rfl
    | cons y b => simp [Part.listBefore, placeBefore, Part.before, ih b]

theorem placeBefore_trans {a b c : Place} (hab : placeBefore a b = true)
    (hbc : placeBefore b c = true) : placeBefore a c = true := by
  rw [← listBefore_names] at hab hbc ⊢
  exact Part.listBefore_trans hab hbc

theorem placeBefore_or_placeBefore {a b : Place} (h : a ≠ b) :
    placeBefore a b = true ∨ placeBefore b a = true := by
  rw [← listBefore_names, ← listBefore_names]
  exact Part.listBefore_or_listBefore fun hnames =>
    h ((List.map_inj_right fun _ _ heq => Part.name.inj heq).1 hnames)

/-- Whether the entries of a disk are in the order of their places, under names that can be written
in a path. -/
structure Disk.Sorted (d : Disk) : Prop where
  ordered : d.entries.Pairwise fun a b => placeBefore a.1 b.1 = true
  words : ∀ e ∈ d.entries, AreWords e.1

def Sorted : Store → Prop
  | .memory m => PathMap.Sorted m.files
  | .disk d => d.Sorted

theorem SameContent.sorted {s t : Store} (h : SameContent s t) (hs : s.Sorted) : t.Sorted := by
  cases s <;> cases t <;> simp_all [SameContent, Sorted]

/-! ## What is done to a disk -/

namespace Disk
variable {d d' : Disk} {place : Place} {p : Path}

theorem mem_insertEntry {e : Entry} {entries : List (Place × Entry)} {x : Place × Entry}
    (h : x ∈ insertEntry place e entries) : x = (place, e) ∨ x ∈ entries := by
  induction entries with
  | nil => exact .inl (List.mem_singleton.1 h)
  | cons first entries ih =>
    obtain ⟨q, f⟩ := first
    rw [insertEntry] at h
    split at h
    · exact (List.mem_cons.1 h).imp_right (List.mem_cons_of_mem _)
    split at h
    · exact List.mem_cons.1 h
    · rcases List.mem_cons.1 h with rfl | h
      · exact .inr List.mem_cons_self
      · exact (ih h).imp_right (List.mem_cons_of_mem _)

theorem ordered_insertEntry {entries : List (Place × Entry)}
    (h : entries.Pairwise fun a b => placeBefore a.1 b.1 = true) (place : Place) (e : Entry) :
    (insertEntry place e entries).Pairwise fun a b => placeBefore a.1 b.1 = true := by
  induction entries with
  | nil => exact List.pairwise_singleton _ _
  | cons first entries ih =>
    obtain ⟨q, f⟩ := first
    obtain ⟨hfirst, hrest⟩ := List.pairwise_cons.1 h
    rw [insertEntry]
    split
    · rename_i hq
      subst hq
      exact List.pairwise_cons.2 ⟨hfirst, hrest⟩
    · rename_i hne
      split
      · rename_i hbefore
        refine List.pairwise_cons.2 ⟨fun x hx => ?_, h⟩
        rcases List.mem_cons.1 hx with rfl | hx
        · exact hbefore
        · exact placeBefore_trans hbefore (hfirst x hx)
      · rename_i hnot
        refine List.pairwise_cons.2 ⟨fun x hx => ?_, ih hrest⟩
        rcases mem_insertEntry hx with rfl | hx
        · exact (placeBefore_or_placeBefore hne).resolve_right hnot
        · exact hfirst x hx

theorem Sorted.set (h : d.Sorted) (hplace : AreWords place) (e : Entry) : (d.set place e).Sorted where
  ordered := ordered_insertEntry h.ordered place e
  words x hx := by
    rcases mem_insertEntry hx with rfl | hx
    · exact hplace
    · exact h.words x hx

theorem Sorted.erase (h : d.Sorted) (place : Place) : (d.erase place).Sorted where
  ordered := h.ordered.filter _
  words x hx := h.words x (List.mem_filter.1 hx).1

theorem Sorted.words_of_entry? (h : d.Sorted) {e : Entry} (he : d.entry? place = some e) :
    AreWords place := by
  unfold entry? at he
  split at he
  · rename_i hempty
    rw [List.isEmpty_iff.1 hempty]
    exact nofun
  · obtain ⟨x, hx, -⟩ := Option.map_eq_some_iff.1 he
    have hplace : x.1 = place := by simpa using List.find?_some hx
    exact hplace ▸ h.words x (List.mem_of_find?_eq_some hx)

theorem directory_of_slot {s : Slot} (h : d.slot p = .ok s) {name : String}
    (hname : s.name = some name) : d.entry? s.dir = some .directory := by
  obtain ⟨_, _, h⟩ := Except.exists_of_bind_ok h
  cases hdrop : (Text.fields '/' p.text).reverse.dropWhile (·.isEmpty) with
  | nil =>
    simp only [hdrop] at h
    cases h
    cases hname
  | cons last outer =>
    simp only [hdrop] at h
    obtain ⟨dir, _, h⟩ := Except.exists_of_bind_ok h
    split at h
    · cases h
    · rename_i hdir
      cases h
      exact Decidable.not_not.1 hdir

/-- What can be made at the place that a path names has a place that can be written. -/
theorem Sorted.words_of_names (h : d.Sorted) (hplace : d.Names p place) : AreWords place := by
  obtain ⟨s, name, hslot, hname, hhere, hup, rfl⟩ := hplace
  obtain ⟨front, field, void, hsplit, _, hne, rfl, _⟩ := exists_of_slot hslot hname
  have hslash : '/' ∉ field :=
    Text.notMem_of_mem_split (hsplit ▸ List.mem_append_right _ List.mem_cons_self)
  intro word hword
  rcases List.mem_append.1 hword with hword | hword
  · exact h.words_of_entry? (directory_of_slot hslot hname) word hword
  · rw [List.mem_singleton.1 hword]
    refine ⟨?_, ?_, ?_, ?_⟩ <;> rw [String.toList_ofList]
    · exact hne
    · exact fun heq => hhere (heq ▸ rfl)
    · exact fun heq => hup (heq ▸ rfl)
    · exact hslash

theorem Sorted.write (h : d.Sorted) {content : Content} (hwrite : d.write p content = .ok d') :
    d'.Sorted := by
  obtain ⟨place, hplace, _, rfl⟩ := names_of_write hwrite
  exact h.set (h.words_of_names hplace) _

theorem Sorted.remove (h : d.Sorted) (hremove : d.remove p = .ok d') : d'.Sorted := by
  obtain ⟨place, _, _, rfl⟩ := names_of_remove hremove
  exact h.erase place

theorem Sorted.removeDir (h : d.Sorted) (hremove : d.removeDir p = .ok d') : d'.Sorted := by
  obtain ⟨place, _, _, rfl⟩ := names_of_removeDir hremove
  exact h.erase place

theorem Sorted.createDir (h : d.Sorted) (hcreate : d.createDir p = .ok d') : d'.Sorted := by
  obtain ⟨place, hplace, _, rfl⟩ := names_of_createDir hcreate
  exact h.set (h.words_of_names hplace) _

theorem Sorted.createFrom (h : d.Sorted) (dirs : List Path) : (d.createFrom dirs).2.Sorted := by
  induction dirs generalizing d with
  | nil => exact h
  | cons p outer ih =>
    unfold Disk.createFrom
    split
    · exact h
    split
    · rename_i d' hd'
      exact h.createDir hd'
    · have hout := ih h
      split
      · rename_i d' hd'
        rw [hd'] at hout
        split
        · rename_i d'' hd''
          exact hout.createDir hd''
        · exact hout
      · exact hout
    · exact h

end Disk

/-! ## What is done to a store -/

theorem sorted_change {p : Path} {f : Memory → Except Error Memory} {g : Disk → Except Fault Disk}
    (hf : ∀ m m', f m = .ok m' → PathMap.Sorted m.files → PathMap.Sorted m'.files)
    (hg : ∀ d d', g d = .ok d' → d.Sorted → d'.Sorted) {s : Store} (hs : s.Sorted) :
    (change p f g s).2.Sorted := by
  cases s with
  | memory m =>
    simp only [change]
    split
    · rename_i m' hm
      exact hf m m' hm hs
    · exact hs
  | disk d =>
    simp only [change]
    split
    · rename_i d' hd
      exact hg d d' hd hs
    · exact hs

theorem sorted_write (p : Path) (content : Content) {s : Store} (hs : s.Sorted) :
    (write p content s).2.Sorted := by
  refine sorted_change (fun m m' h hm => ?_) (fun d d' h hd => hd.write h) hs
  obtain ⟨_, _, _, rfl⟩ := Memory.eq_of_write h
  exact PathMap.sorted_insert hm p content

theorem sorted_remove (p : Path) {s : Store} (hs : s.Sorted) : (remove p s).2.Sorted := by
  refine sorted_change (fun m m' h hm => ?_) (fun d d' h hd => hd.remove h) hs
  rw [Memory.eq_of_remove h]
  exact PathMap.sorted_erase hm p

theorem sorted_of_sameFiles {m : Memory} {t : Store} (h : SameFiles (.memory m) t)
    (hm : PathMap.Sorted m.files) : t.Sorted := by
  obtain ⟨m', rfl, hfiles⟩ := h.memory
  rwa [Sorted, hfiles]

theorem sorted_createDirs (p : Path) {s : Store} (hs : s.Sorted) : (createDirs p s).2.Sorted := by
  cases s with
  | memory m => exact sorted_of_sameFiles (sameFiles_createDirs p (.memory m)) hs
  | disk d => exact Disk.Sorted.createFrom (d := d) hs p.ancestors

theorem sorted_removeDir (p : Path) {s : Store} (hs : s.Sorted) : (removeDir p s).2.Sorted := by
  refine sorted_change (fun m m' h hm => ?_) (fun d d' h hd => hd.removeDir h) hs
  rw [Memory.eq_of_removeDir h]
  exact hm

/-- No number of operations changes the order of the files. -/
theorem Confined.sorted {File Dir : Path → Prop} {s t : Store} (h : Confined File Dir s t)
    (hs : s.Sorted) : t.Sorted := by
  induction h with
  | refl => exact hs
  | tail _ hstep ih =>
    cases hstep with
    | look hsame => exact hsame.sorted ih
    | createDirs p => exact sorted_createDirs p ih
    | write content => exact sorted_write _ content ih
    | remove => exact sorted_remove _ ih
    | removeDir => exact sorted_removeDir _ ih

/-- What is put into a store one by one is in order. -/
theorem Memory.sorted_put {m : Memory} (h : PathMap.Sorted m.files) (p : Path) (content : Content) :
    PathMap.Sorted (m.put p content).files := by
  unfold put
  split <;> exact PathMap.sorted_insert h p content

theorem Memory.sorted_empty : PathMap.Sorted Memory.empty.files := List.Pairwise.nil

/-! ## Listed files -/

theorem parts_foldl_child {names : Place} (h : AreWords names) (p : Path) :
    (names.foldl Path.child p).parts = p.parts ++ names.map .name := by
  induction names generalizing p with
  | nil => simp
  | cons name names ih =>
    obtain ⟨hname, hnames⟩ := List.forall_mem_cons.1 h
    rw [List.foldl_cons, ih hnames, Path.parts_child_name p hname, List.append_assoc]
    rfl

theorem Disk.Sorted.sorted_walk {d : Disk} (h : d.Sorted) {p : Path} {files : List Path}
    (hwalk : d.walk p = .ok files) : files.Pairwise fun p q => p.before q = true := by
  obtain ⟨⟨place, e⟩, _, hwalk⟩ := Except.exists_of_bind_ok hwalk
  cases e with
  | file content =>
    cases hwalk
    exact List.pairwise_singleton _ _
  | directory =>
    cases hwalk
    have hentries := h.ordered.imp_of_mem fun ha hb hab =>
      (⟨hab, h.words _ ha, h.words _ hb⟩ : placeBefore _ _ = true ∧ AreWords _ ∧ AreWords _)
    refine hentries.filterMap _ ?_
    rintro ⟨a, e⟩ ⟨b, f⟩ ⟨hbefore, ha, hb⟩ p' hp' q' hq'
    cases e <;> cases f <;> simp only [Option.ite_none_right_eq_some, Option.some.injEq,
      reduceCtorEq] at hp' hq'
    obtain ⟨hprefixa, rfl⟩ := hp'
    obtain ⟨hprefixb, rfl⟩ := hq'
    obtain ⟨insidea, rfl⟩ := List.isPrefixOf_iff_prefix.1 hprefixa
    obtain ⟨insideb, rfl⟩ := List.isPrefixOf_iff_prefix.1 hprefixb
    rw [List.drop_left, List.drop_left, Path.before, parts_foldl_child ha.append.2,
      parts_foldl_child hb.append.2, Part.listBefore_append, listBefore_names]
    rw [← listBefore_names, List.map_append, List.map_append, Part.listBefore_append,
      listBefore_names] at hbefore
    exact hbefore

/-- Files are listed in the order of their paths. -/
theorem sorted_listFiles {dir : Path} {pattern : String} {files : List Path} {s t : Store}
    (hs : s.Sorted) (h : listFiles dir pattern s = (.ok files, t)) :
    files.Pairwise fun p q => p.before q = true := by
  obtain ⟨pieces, s', hpieces, h⟩ := exists_of_bind_ok h
  obtain rfl : s = s' := congrArg (·.2) hpieces
  have hanswer := congrArg (·.1) h
  cases s with
  | memory m =>
    simp only [query, Memory.listFiles] at hanswer
    split at hanswer
    · cases hanswer
      have hkeys : (PathMap.keys m.files).Pairwise fun p q => p.before q = true :=
        List.pairwise_map.2 hs
      exact hkeys.filter _
    · cases hanswer
  | disk d =>
    obtain ⟨all, hall, hlist⟩ := Except.exists_of_bind_ok (Except.of_mapError_ok hanswer)
    cases hlist
    exact (hs.sorted_walk hall).filter _

end AgentDocs.Store
