import AgentDocs.Proofs.Path.Absolute
import AgentDocs.Proofs.Store.Places

/-! # The entries of a disk, place by place

An operation on a disk changes the entry at one place: the one that the names of its path are. To
create a directory changes a place at which there was nothing. -/
namespace AgentDocs.Store
open Text

/-- The place that the names of a path from the root are. -/
def placeOn (p : Path) : Place := p.parts.tail.map Part.text

theorem placeOn_injective {p q : Path} (hp : p.Rooted) (hq : q.Rooted)
    (h : placeOn p = placeOn q) : p.parts = q.parts := by
  obtain ⟨ps, hps, hp⟩ := hp
  obtain ⟨qs, hqs, hq⟩ := hq
  simp only [placeOn, hp, hq, List.tail_cons] at h
  rw [hp, hq, ← hps.map_name_text, h, hqs.map_name_text]

namespace Disk

/-! ## Setting and erasing -/

theorem find?_insertEntry (place other : Place) (e : Entry) (entries : List (Place × Entry)) :
    (insertEntry place e entries).find? (·.1 == other)
      = if place = other then some (place, e) else entries.find? (·.1 == other) := by
  induction entries with
  | nil => by_cases h : place = other <;> simp [insertEntry, h]
  | cons first entries ih =>
    obtain ⟨q, f⟩ := first
    simp only [insertEntry]
    split
    · rename_i hq
      by_cases h : place = other <;> simp [hq, h]
    · rename_i hq
      split
      · by_cases h : place = other <;> simp [List.find?_cons, h]
      · by_cases h : place = other
        · subst h
          simpa [List.find?_cons, hq] using ih
        · simp only [List.find?_cons, ih, h, if_false]

theorem entry?_set {d : Disk} {place : Place} (hne : place ≠ []) (e : Entry) (other : Place) :
    entry? (d.set place e) other = if place = other then some e else d.entry? other := by
  unfold entry? set
  rw [find?_insertEntry]
  by_cases h : place = other
  · subst h
    simp [hne]
  · simp only [h, if_false]

theorem find?_erased (place other : Place) (entries : List (Place × Entry)) :
    (entries.filter fun e => e.1 != place).find? (·.1 == other)
      = if place = other then none else entries.find? (·.1 == other) := by
  split
  · rename_i h
    subst h
    rw [List.find?_eq_none]
    intro e he
    simpa using (List.mem_filter.1 he).2
  · rename_i h
    induction entries with
    | nil => rfl
    | cons first entries ih =>
      by_cases hp : first.1 = place
      · simp [hp, h, ih]
      · simp [List.find?_cons, hp, ih]

theorem entry?_erase {d : Disk} {place : Place} (hne : place ≠ []) (other : Place) :
    entry? (d.erase place) other = if place = other then none else d.entry? other := by
  unfold entry? erase
  rw [find?_erased]
  by_cases h : place = other
  · subst h
    simp [hne]
  · simp only [h, if_false]

/-! ## The place of a path -/

/-- A field that is no part of a path leads nowhere else. -/
theorem eq_of_step_void {d : Disk} {field : List Char} (hvoid : Part.ofField? false field = none)
    {start place : Place} (h : d.step start (String.ofList field) = .ok place) : place = start := by
  have hfield : String.ofList field = "" ∨ String.ofList field = "." := by
    unfold Part.ofField? at hvoid
    split at hvoid
    · exact .inl rfl
    · exact .inr rfl
    · cases hvoid
    · cases hvoid
  unfold step at h
  rw [if_pos hfield] at h
  split at h <;> cases h
  rfl

/-- Fields that are names, void ones aside, are followed one by one. -/
theorem eq_of_foldlM_fields {d : Disk} {fs : List (List Char)} {names : List Part}
    (hn : Path.AreNames names) (hparts : fs.filterMap (Part.ofField? false) = names)
    {start place : Place} (h : (fs.map String.ofList).foldlM d.step start = .ok place) :
    place = start ++ names.map Part.text := by
  induction fs generalizing start names with
  | nil =>
    subst hparts
    cases h
    simp
  | cons f fs ih =>
    rw [List.map_cons, List.foldlM_cons] at h
    obtain ⟨next, hstep, h⟩ := Except.exists_of_bind_ok h
    cases hf : Part.ofField? false f with
    | none =>
      rw [List.filterMap_cons_none hf] at hparts
      rw [ih hn hparts h, eq_of_step_void hf hstep]
    | some part =>
      rw [List.filterMap_cons_some hf] at hparts
      subst hparts
      obtain ⟨hname, hproper⟩ := hn part List.mem_cons_self
      have htext : part = .name (String.ofList f) := by
        unfold Part.ofField? at hf
        split at hf <;> cases hf
        · simp [Part.isName] at hname
        · rfl
      subst htext
      rw [ih (fun q hq => hn q (List.mem_cons_of_mem _ hq)) rfl h, eq_of_step hproper hstep]
      simp [Part.text]

theorem ofField?_name {field : List Char} (hempty : field ≠ []) (hhere : field ≠ ['.'])
    (hup : field ≠ ['.', '.']) :
    Part.ofField? false field = some (.name (String.ofList field)) := by
  unfold Part.ofField?
  split <;> simp_all

theorem exists_of_dropWhile {α : Type} {p : α → Bool} {l rest : List α} {x : α}
    (h : l.dropWhile p = x :: rest) :
    ∃ front, l = front ++ x :: rest ∧ (∀ y ∈ front, p y = true) ∧ p x = false := by
  refine ⟨l.takeWhile p, ?_, List.all_eq_true.1 List.all_takeWhile, ?_⟩
  · rw [← h, List.takeWhile_append_dropWhile]
  · have hne : l.dropWhile p ≠ [] := h ▸ List.cons_ne_nil x rest
    simpa [h] using List.head_dropWhile_not p hne

/-- The fields of a path, with the last that is not empty, and the slot that they lead to. -/
theorem exists_of_slot {d : Disk} {p : Path} {s : Slot} (h : d.slot p = .ok s) {name : String}
    (hname : s.name = some name) :
    ∃ front field void, split '/' p.text.toList = front ++ field :: void ∧
      (∀ f ∈ void, f = []) ∧ field ≠ [] ∧ String.ofList field = name ∧
      (front.map String.ofList).foldlM d.step (d.origin p) = .ok s.dir := by
  obtain ⟨_, _, h⟩ := Except.exists_of_bind_ok h
  cases hdrop : (fields '/' p.text).reverse.dropWhile (·.isEmpty) with
  | nil =>
    simp only [hdrop] at h
    cases h
    cases hname
  | cons last outer =>
    simp only [hdrop] at h
    obtain ⟨dir, hfold, h⟩ := Except.exists_of_bind_ok h
    have hs : s.dir = dir ∧ s.name = some last := by
      split at h
      · cases h
      · cases h
        exact ⟨rfl, rfl⟩
    obtain ⟨rfl, hlast⟩ := hs
    obtain rfl : last = name := Option.some.inj (hlast.symm.trans hname)
    obtain ⟨trailing, hall, hempty, hne⟩ := exists_of_dropWhile hdrop
    have hsplit : (split '/' p.text.toList).map String.ofList
        = outer.reverse ++ last :: trailing.reverse := by
      change fields '/' p.text = _
      rw [← List.reverse_reverse (fields '/' p.text), hall]
      simp
    obtain ⟨front, behind, heq, hfront, hbehind⟩ := List.map_eq_append_iff.1 hsplit
    obtain ⟨field, void, rfl, hfield, hvoid⟩ := List.map_eq_cons_iff.1 hbehind
    refine ⟨front, field, void, heq, fun f hf => ?_, ?_, hfield, hfront ▸ hfold⟩
    · have hmem : String.ofList f ∈ trailing := by
        rw [← List.mem_reverse, ← hvoid]
        exact List.mem_map_of_mem hf
      simpa using hempty _ hmem
    · rintro rfl
      rw [← hfield] at hne
      simp at hne

/-- The slot of a path is at the place that its names are. -/
theorem place_of_slot {d : Disk} {p : Path} (hp : p.Rooted) {s : Slot} (h : d.slot p = .ok s)
    {name : String} (hname : s.name = some name) (hdots : name ≠ "." ∧ name ≠ "..") :
    s.dir ++ [name] = placeOn p := by
  obtain ⟨names, hn, hparts⟩ := hp
  have habs : p.isAbsolute = true := Path.isAbsolute_iff.2 ⟨names, hparts⟩
  obtain ⟨cs, hcs⟩ := Path.exists_of_isAbsolute habs
  have hnames : (split '/' p.text.toList).filterMap (Part.ofField? false) = names := by
    rw [Path.parts, hcs, Path.partsOf_slash] at hparts
    rw [hcs, split, if_pos rfl]
    exact List.tail_eq_of_cons_eq hparts
  obtain ⟨front, field, void, hsplit, hvoid, hne, rfl, hfold⟩ := exists_of_slot h hname
  have hfield := ofField?_name hne (fun he => hdots.1 (he ▸ rfl)) (fun he => hdots.2 (he ▸ rfl))
  have hnone : void.filterMap (Part.ofField? false) = [] :=
    List.filterMap_eq_nil_iff.2 fun f hf => by rw [hvoid f hf]; rfl
  rw [hsplit, List.filterMap_append, List.filterMap_cons_some hfield, hnone] at hnames
  have horigin : d.origin p = [] := if_pos habs
  rw [horigin] at hfold
  have hdir := eq_of_foldlM_fields (fun q hq => hn q (hnames ▸ List.mem_append_left _ hq)) rfl hfold
  rw [hdir, placeOn, hparts, List.tail_cons, ← hnames]
  simp [Part.text]

/-! ## Operations -/

theorem lookUp_ok {d : Disk} {dir : Place} {name : String} {found : Option Entry}
    (h : d.lookUp dir name = .ok found) : found = d.entry? (dir ++ [name]) := by
  unfold lookUp at h
  split at h <;> cases h
  rfl

/-- Whether a place is where the last field of a path is looked up, if it is a name. -/
def Names (d : Disk) (p : Path) (place : Place) : Prop :=
  ∃ s name, d.slot p = .ok s ∧ s.name = some name ∧ name ≠ "." ∧ name ≠ ".." ∧
    place = s.dir ++ [name]

theorem Names.ne_nil {d : Disk} {p : Path} {place : Place} (h : d.Names p place) : place ≠ [] := by
  obtain ⟨s, name, _, _, _, _, rfl⟩ := h
  simp

theorem Names.eq_placeOn {d : Disk} {p : Path} {place : Place} (h : d.Names p place)
    (hp : p.Rooted) : place = placeOn p := by
  obtain ⟨s, name, hslot, hname, hhere, hup, rfl⟩ := h
  exact place_of_slot hp hslot hname ⟨hhere, hup⟩

/-- A file is written where there is no directory. -/
theorem names_of_write {d d' : Disk} {p : Path} {content : Content}
    (h : d.write p content = .ok d') :
    ∃ place, d.Names p place ∧ d.entry? place ≠ some .directory ∧
      d' = d.set place (.file content) := by
  obtain ⟨s, hslot, h⟩ := Except.exists_of_bind_ok h
  split at h
  · cases h
  · cases h
  · cases h
  · rename_i name hhere hup hname
    split at h
    · cases h
    · obtain ⟨found, hfound, h⟩ := Except.exists_of_bind_ok h
      rw [lookUp_ok hfound] at h
      split at h
      · cases h
      · rename_i hdir
        cases h
        exact ⟨_, ⟨s, name, hslot, hname, hhere, hup, rfl⟩, hdir, rfl⟩

theorem names_of_remove {d d' : Disk} {p : Path} (h : d.remove p = .ok d') :
    ∃ place, d.Names p place ∧ d.entry? place ≠ some .directory ∧ d' = d.erase place := by
  obtain ⟨s, hslot, h⟩ := Except.exists_of_bind_ok h
  split at h
  · cases h
  · cases h
  · cases h
  · rename_i name hhere hup hname
    obtain ⟨found, hfound, h⟩ := Except.exists_of_bind_ok h
    rw [lookUp_ok hfound] at h
    split at h
    · cases h
    · cases h
    · rename_i content hfile
      split at h
      · cases h
      · cases h
        exact ⟨_, ⟨s, name, hslot, hname, hhere, hup, rfl⟩, by rw [hfile]; simp, rfl⟩

theorem names_of_removeDir {d d' : Disk} {p : Path} (h : d.removeDir p = .ok d') :
    ∃ place, d.Names p place ∧ d.entry? place = some .directory ∧ d' = d.erase place := by
  obtain ⟨s, hslot, h⟩ := Except.exists_of_bind_ok h
  split at h
  · cases h
  · cases h
  · cases h
  · rename_i name hhere hup hname
    obtain ⟨found, hfound, h⟩ := Except.exists_of_bind_ok h
    rw [lookUp_ok hfound] at h
    split at h
    · cases h
    · cases h
    · rename_i hdir
      split at h
      · cases h
      · cases h
        exact ⟨_, ⟨s, name, hslot, hname, hhere, hup, rfl⟩, hdir, rfl⟩

theorem names_of_createDir {d d' : Disk} {p : Path} (h : d.createDir p = .ok d') :
    ∃ place, d.Names p place ∧ d.entry? place = none ∧ d' = d.set place .directory := by
  obtain ⟨s, hslot, h⟩ := Except.exists_of_bind_ok h
  split at h
  · cases h
  · cases h
  · cases h
  · rename_i name hhere hup hname
    obtain ⟨found, hfound, h⟩ := Except.exists_of_bind_ok h
    split at h
    · cases h
    · cases h
      exact ⟨_, ⟨s, name, hslot, hname, hhere, hup, rfl⟩, (lookUp_ok hfound).symm, rfl⟩

/-- Whether a disk has the entries of another and, besides, only directories. -/
def AddsDirs (d d' : Disk) : Prop :=
  ∀ place, d'.entry? place = d.entry? place ∨
    d.entry? place = none ∧ d'.entry? place = some .directory

theorem AddsDirs.refl (d : Disk) : AddsDirs d d := fun _ => .inl rfl

theorem AddsDirs.trans {a b c : Disk} (hab : AddsDirs a b) (hbc : AddsDirs b c) :
    AddsDirs a c := by
  intro place
  rcases hab place with hab | ⟨hnone, hab⟩ <;> rcases hbc place with hbc | ⟨hnone', hbc⟩
  · exact .inl (hbc.trans hab)
  · exact .inr ⟨hab ▸ hnone', hbc⟩
  · exact .inr ⟨hnone, hbc.trans hab⟩
  · rw [hab] at hnone'
    cases hnone'

theorem addsDirs_createDir {d d' : Disk} {p : Path} (h : d.createDir p = .ok d') :
    AddsDirs d d' := by
  obtain ⟨place, hplace, hnone, rfl⟩ := names_of_createDir h
  intro other
  rw [entry?_set hplace.ne_nil]
  split
  · rename_i heq
    exact .inr ⟨heq ▸ hnone, rfl⟩
  · exact .inl rfl

theorem addsDirs_createFrom (d : Disk) (dirs : List Path) : AddsDirs d (d.createFrom dirs).2 := by
  induction dirs generalizing d with
  | nil => exact .refl d
  | cons p outer ih =>
    unfold createFrom
    split
    · exact .refl d
    split
    · rename_i d' hd'
      exact addsDirs_createDir hd'
    · have hout := ih d
      split
      · rename_i d' hd'
        rw [hd'] at hout
        split
        · rename_i d'' hd''
          exact hout.trans (addsDirs_createDir hd'')
        · exact hout
      · exact hout
    · exact .refl d

end Disk
end AgentDocs.Store
