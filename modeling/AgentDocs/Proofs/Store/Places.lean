import AgentDocs.Proofs.Path.Map
import AgentDocs.Proofs.Path.Normal
import AgentDocs.Proofs.Store.Content

/-! # The files that paths lead to

A file that is found under a path is one of the files of the store, at the place of the path. A
disk has this only of paths from the root: what a relative path leads to depends on the working
directory, so that one file may be found under any number of them. -/
namespace AgentDocs.Store

/-- Whether a store has a file at the place of a path. -/
def Stored (store : Store) (p : Path) : Prop := ∃ e ∈ store.files, e.1.parts = p.parts

/-- Whether the parts of a path tell what it leads to. -/
def Places (store : Store) (p : Path) : Prop :=
  match store with
  | .memory _ => True
  | .disk _ => p.isAbsolute = true

theorem SameContent.stored {a b : Store} (h : SameContent a b) {p : Path} (hp : Stored a p) :
    Stored b p := by
  unfold Stored at hp ⊢
  rwa [h.files] at hp

theorem SameContent.places {a b : Store} (h : SameContent a b) {p : Path} (hp : Places a p) :
    Places b p := by
  cases a <;> cases b <;> simp_all [SameContent, Places]

/-- There are no more places of files than files. -/
theorem length_le_files {store : Store} {ps : List Path} (hnodup : (ps.map Path.parts).Nodup)
    (h : ∀ p ∈ ps, Stored store p) : ps.length ≤ store.files.length := by
  have hsub : ps.map Path.parts ⊆ store.files.map fun e => e.1.parts := by
    intro parts hparts
    obtain ⟨p, hp, rfl⟩ := List.mem_map.1 hparts
    obtain ⟨e, he, heq⟩ := h p hp
    exact List.mem_map.2 ⟨e, he, heq⟩
  have hlen := hnodup.length_le_of_subset hsub
  simpa using hlen

/-! ## Files on a disk -/

namespace Disk
open Text

theorem eq_of_step {d : Disk} {text : String} (hproper : (Part.name text).Proper)
    {start place : Place} (h : d.step start text = .ok place) : place = start ++ [text] := by
  obtain ⟨hempty, hhere, hup, _⟩ := hproper
  have hne (other : String) (ho : text.toList ≠ other.toList) : text ≠ other :=
    fun he => ho (he ▸ rfl)
  have hvoid : ¬(text = "" ∨ text = ".") :=
    fun he => he.elim (hne "" hempty) (hne "." hhere)
  unfold step at h
  rw [if_neg hvoid, if_neg (hne ".." hup)] at h
  split at h
  · cases h
  · cases hl : d.lookUp start text with
    | error fault =>
      rw [hl] at h
      cases h
    | ok found =>
      rw [hl] at h
      cases found <;> cases h
      rfl

/-- The names in a path from the root are followed one by one. -/
theorem eq_of_foldlM_step {d : Disk} {names : List Part} (hn : Path.AreNames names)
    {start place : Place}
    (h : (names.map Part.text).foldlM d.step start = .ok place) :
    place = start ++ names.map Part.text := by
  induction names generalizing start with
  | nil =>
    cases h
    simp
  | cons p names ih =>
    obtain ⟨hname, hproper⟩ := hn p List.mem_cons_self
    have hnames : Path.AreNames names := fun q hq => hn q (List.mem_cons_of_mem _ hq)
    cases p with
    | name text =>
      rw [List.map_cons, List.foldlM_cons, Part.text] at h
      cases hstep : d.step start text with
      | error fault =>
        rw [hstep] at h
        cases h
      | ok next =>
        rw [hstep] at h
        rw [ih hnames h, eq_of_step hproper hstep, List.append_assoc]
        rfl
    | _ => simp [Part.isName] at hname

/-- The fields of a normal path from the root: an empty one, and the names. -/
theorem fields_of_isAbsolute {p : Path} (hnormal : p.normal = p) {names : List Part}
    (hn : Path.AreNames names) (hparts : p.parts = .root :: names) :
    fields '/' p.text = "" :: if names = [] then [""] else names.map Part.text := by
  have htext : p.text = "/" ++ joined "/" (names.map Part.text) := by
    have hof : p = Path.ofParts p.parts := by
      rw [← hnormal, Path.parts_normal]
      rfl
    rw [hof, hparts]
    rfl
  have hchars : p.text.toList = '/' :: Text.join ['/'] (names.map fun q => q.text.toList) := by
    rw [htext, String.toList_append, Path.toList_joined]
    rfl
  rw [fields, hchars, split, if_pos rfl]
  split
  · rename_i hnil
    subst hnil
    rfl
  · rename_i hne
    rw [Path.split_joined hne fun q hq => ⟨(hn.written q hq).1, (hn.written q hq).2.1⟩]
    simp [Function.comp_def]

/-- What is found under a normal path from the root is at the place that its names are. -/
theorem place_of_find {d : Disk} {p : Path} (hnormal : p.normal = p) {names : List Part}
    (hn : Path.AreNames names) (hparts : p.parts = .root :: names) {place : Place} {e : Entry}
    (h : d.find p = .ok (place, e)) : place = names.map Part.text ∧ d.entry? place = some e := by
  obtain ⟨_, _, h⟩ := Except.exists_of_bind_ok h
  obtain ⟨place', hfold, h⟩ := Except.exists_of_bind_ok h
  have hentry : d.entry? place' = some e ∧ place' = place := by
    split at h
    · rename_i hentry
      cases h
      exact ⟨hentry, rfl⟩
    · cases h
  obtain ⟨hentry, rfl⟩ := hentry
  refine ⟨?_, hentry⟩
  have horigin : d.origin p = [] := if_pos (Path.isAbsolute_iff.2 ⟨names, hparts⟩)
  have hfirst : d.step [] "" = .ok [] := rfl
  rw [fields_of_isAbsolute hnormal hn hparts, horigin, List.foldlM_cons, hfirst] at hfold
  change List.foldlM d.step [] _ = _ at hfold
  split at hfold
  · rename_i hnil
    rw [List.foldlM_cons, hfirst] at hfold
    cases hfold
    rw [hnil]
    rfl
  · exact eq_of_foldlM_step hn hfold

theorem find_of_exists? {d : Disk} {p : Path} (h : d.exists? p (some .file) = .ok true) :
    ∃ place content, d.find p = .ok (place, .file content) := by
  unfold exists? at h
  split at h
  · rename_i place content hfind
    exact ⟨place, content, hfind⟩
  · cases h
  · cases h
  · cases h

theorem mem_of_entry? {d : Disk} {place : Place} {content : Content}
    (h : d.entry? place = some (.file content)) : (place, .file content) ∈ d.entries := by
  unfold entry? at h
  split at h
  · cases h
  · obtain ⟨⟨q, e⟩, hfind, rfl⟩ := Option.map_eq_some_iff.1 h
    have hq : q = place := by simpa using List.find?_some hfind
    exact hq ▸ List.mem_of_find?_eq_some hfind

/-- A file is found at the place that its names are. -/
theorem stored_of_mem {d : Disk} {p : Path} {names : List Part} (hn : Path.AreNames names)
    (hparts : p.parts = .root :: names) {content : Content}
    (h : (names.map Part.text, .file content) ∈ d.entries) : Stored (.disk d) p := by
  refine ⟨(Path.ofParts (.root :: (names.map Part.text).map .name), content), ?_, ?_⟩
  · exact List.mem_filterMap.2 ⟨_, h, rfl⟩
  · rw [hn.map_name_text, hparts]
    exact Path.parts_ofParts ⟨trivial, hn.written⟩

end Disk

theorem stored_of_isFile {store : Store} {p : Path} (hnormal : p.normal = p)
    (hplaces : Places store p) (h : (isFile p store).1 = .ok true) : Stored store p := by
  cases store with
  | memory m =>
    have hfile : PathMap.has p m.files = true := by
      simpa [isFile, exists?, query, Memory.exists?, Memory.isFile] using h
    obtain ⟨content, hget⟩ := PathMap.has_iff.1 hfile
    obtain ⟨q, hq, hmem⟩ := PathMap.exists_mem_of_get? hget
    exact ⟨(q, content), hmem, hq⟩
  | disk d =>
    have hexists : d.exists? p (some .file) = .ok true := Except.of_mapError_ok h
    obtain ⟨place, content, hfind⟩ := Disk.find_of_exists? hexists
    obtain ⟨names, hn, hparts⟩ := Path.exists_names_of_isAbsolute hnormal hplaces
    obtain ⟨rfl, hentry⟩ := Disk.place_of_find hnormal hn hparts hfind
    exact Disk.stored_of_mem hn hparts (Disk.mem_of_entry? hentry)

end AgentDocs.Store
