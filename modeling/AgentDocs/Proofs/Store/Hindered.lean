import AgentDocs.Proofs.Store.DepthFirst
import AgentDocs.Proofs.Store.Writable

/-! # What keeps a place from being looked up

Below a file there is nothing on a disk that is a tree. Still a place there is not missing for the
system, which answers that the path goes through what is no directory; and so it refuses names and
paths that are too long. Every other place is found, or it is missing. -/
namespace AgentDocs.Store.Disk
variable {d : Disk} {place : Place}

/-! ## Trees -/

theorem entry?_ne_none_iff (hne : place ≠ []) :
    d.entry? place ≠ none ↔ ∃ e, (place, e) ∈ d.entries := by
  unfold entry?
  rw [if_neg (by simpa using hne), ne_eq, Option.map_eq_none_iff, List.find?_eq_none]
  simp

/-- Whether nothing is right inside of a place. -/
def Bare (d : Disk) (place : Place) : Prop := ∀ name, d.entry? (place ++ [name]) = none

namespace IsTree

theorem directory (h : d.IsTree) {name : String} (hname : d.entry? (place ++ [name]) ≠ none) :
    d.entry? place = some .directory := by
  obtain ⟨e, he⟩ := (entry?_ne_none_iff (by simp)).1 hname
  exact h.around place name e he

theorem directory_append (h : d.IsTree) {more : Place} (hne : more ≠ [])
    (hmore : d.entry? (place ++ more) ≠ none) : d.entry? place = some .directory := by
  induction more generalizing place with
  | nil => exact absurd rfl hne
  | cons name more ih =>
    rw [List.append_cons] at hmore
    have hfirst : d.entry? (place ++ [name]) ≠ none := by
      by_cases hnil : more = []
      · rwa [hnil, List.append_nil] at hmore
      · rw [ih hnil hmore]
        exact Option.some_ne_none _
    exact h.directory hfirst

/-- Around everything are directories. -/
theorem around_entry (h : d.IsTree) (hplace : d.entry? place ≠ none) {q : Place} (hq : q <+: place)
    (hne : q ≠ place) : d.entry? q = some .directory := by
  obtain ⟨more, rfl⟩ := hq
  exact h.directory_append (fun hnil => hne (by rw [hnil, List.append_nil])) hplace

/-- The directory around what is erased stays. -/
theorem directory_erase (h : d.IsTree) {name : String} (hname : d.entry? (place ++ [name]) ≠ none) :
    Disk.entry? (d.erase (place ++ [name])) place = some .directory := by
  rw [entry?_erase (by simp), if_neg (by simp), h.directory hname]

/-- What has nothing right inside of it can be erased. -/
theorem erase (h : d.IsTree) (hne : place ≠ []) (hbare : d.Bare place) : (d.erase place).IsTree where
  rooted e hmem := h.rooted e (List.mem_filter.1 hmem).1
  around q name e hmem := by
    have hbefore := (List.mem_filter.1 hmem).1
    have hleft : place ≠ q := by
      rintro rfl
      exact (entry?_ne_none_iff (by simp)).2 ⟨e, hbefore⟩ (hbare name)
    rw [entry?_erase hne, if_neg hleft, h.around q name e hbefore]

end IsTree

/-! ## Following names -/

/-- On the way to a place at which something does not hold, there is a first place like that. -/
theorem exists_first {P : Place → Prop} (hnil : P []) (h : ¬P place) :
    ∃ q name, q ++ [name] <+: place ∧ P q ∧ ¬P (q ++ [name]) := by
  induction place using List.reverseRecOn with
  | nil => exact absurd hnil h
  | append_singleton place name ih =>
    by_cases hplace : P place
    · exact ⟨place, name, List.prefix_refl _, hplace, h⟩
    · obtain ⟨q, first, hq, hfound⟩ := ih hplace
      exact ⟨q, first, hq.trans (List.prefix_append _ _), hfound⟩

theorem walk_of_entry (h : d.IsTree) (hwords : AreWords place) (hfits : Fits place)
    (hentry : d.entry? place ≠ none) : place.foldlM d.step [] = .ok place := by
  induction place using List.reverseRecOn with
  | nil => rfl
  | append_singleton place name ih =>
    have hdir := h.directory hentry
    have hwalk := ih hwords.append.1 hfits.around (by simp [hdir])
    rw [walk_concat hwalk, step_entry (hwords name (by simp)) hdir (hfits name (by simp))]
    cases hlast : d.entry? (place ++ [name]) with
    | none => exact absurd hlast hentry
    | some _ => rfl

/-- Names are followed up to the first at which that fails. -/
theorem walk_error {q more : Place} {name : String} {fault : Fault}
    (hwalk : q.foldlM d.step [] = .ok q) (hstep : d.step q name = .error fault) :
    (q ++ name :: more).foldlM d.step [] = .error fault := by
  rw [List.foldlM_append, hwalk]
  show (name :: more).foldlM d.step q = _
  rw [List.foldlM_cons, hstep]
  rfl

theorem find_of_walk (htext : checkText (pathTo place) = .ok ()) (hwords : AreWords place)
    (hwalk : place.foldlM d.step [] = .ok place) :
    d.find (pathTo place) = match d.entry? place with
      | some e => .ok (place, e)
      | none => .error .missing := by
  rw [find, htext, foldlM_fields_pathTo hwords, hwalk]
  rfl

/-- A lookup ends at the first name that cannot be followed. -/
theorem find_of_step_error (h : d.IsTree) (htext : checkText (pathTo place) = .ok ())
    (hwords : AreWords place) {q : Place} {name : String} (hq : q ++ [name] <+: place)
    (hfits : Fits q) (hentry : d.entry? q ≠ none) {fault : Fault}
    (hstep : d.step q name = .error fault) : d.find (pathTo place) = .error fault := by
  obtain ⟨more, rfl⟩ := hq
  have hwalk := walk_of_entry h hwords.append.1.append.1 hfits hentry
  have herror : (q ++ [name] ++ more).foldlM d.step [] = .error fault := by
    rw [List.append_assoc]
    exact walk_error hwalk hstep
  rw [find, htext, foldlM_fields_pathTo hwords, herror]
  rfl

theorem step_of_file {content : Content} (hfile : d.entry? place = some (.file content))
    (name : String) : d.step place name = .error .notADirectory := by
  rw [step, if_pos (by simp [hfile])]

theorem step_of_long {name : String} (hname : (Part.name name).Proper)
    (hdir : d.entry? place = some .directory) (hlong : longestName < name.utf8ByteSize) :
    d.step place name = .error .nameTooLong := by
  obtain ⟨hempty, hhere, hup⟩ := ne_of_proper hname
  rw [step, if_neg (by simpa using hdir), if_neg (not_or.2 ⟨hempty, hhere⟩), if_neg hup, lookUp,
    if_pos hlong]
  rfl

/-! ## What is in the way -/

/-- What keeps a place from being looked up: a path that the system does not take, a file on the way,
or a name that is too long for the directory in which it is looked up. -/
inductive Hindered (d : Disk) (place : Place) : Fault → Prop
  | text {fault : Fault} : checkText (pathTo place) = .error fault → Hindered d place fault
  | file {q : Place} {name : String} {content : Content} :
      checkText (pathTo place) = .ok () → q ++ [name] <+: place → Fits q →
      d.entry? q = some (.file content) → Hindered d place .notADirectory
  | long {q : Place} {name : String} :
      checkText (pathTo place) = .ok () → q ++ [name] <+: place → Fits q →
      d.entry? q = some .directory → longestName < name.utf8ByteSize →
      Hindered d place .nameTooLong

theorem checkText_ne_missing (place : Place) : checkText (pathTo place) ≠ .error .missing := by
  have hne : (pathTo place).text.isEmpty = false := by simp [pathTo]
  rw [checkText, hne]
  split
  · simp
  · simp only [Bool.false_eq_true, if_false]
    split <;> simp

theorem Hindered.ne_missing {fault : Fault} (h : d.Hindered place fault) : fault ≠ .missing := by
  cases h with
  | text htext =>
    rintro rfl
    exact checkText_ne_missing place htext
  | file => nofun
  | long => nofun

theorem find_of_hindered (htree : d.IsTree) (hwords : AreWords place) {fault : Fault}
    (h : d.Hindered place fault) : d.find (pathTo place) = .error fault := by
  cases h with
  | text htext =>
    rw [find, htext]
    rfl
  | @file q name content htext hq hfits hfile =>
    exact find_of_step_error htree htext hwords hq hfits (by simp [hfile]) (step_of_file hfile name)
  | @long q name htext hq hfits hdir hlong =>
    have hname : (Part.name name).Proper := hwords name (hq.subset (by simp))
    exact find_of_step_error htree htext hwords hq hfits (by simp [hdir])
      (step_of_long hname hdir hlong)

theorem fits_concat {name : String} (h : Fits place) (hname : name.utf8ByteSize ≤ longestName) :
    Fits (place ++ [name]) := by
  intro other hother
  rcases List.mem_append.1 hother with hother | hother
  · exact h other hother
  · rw [List.mem_singleton.1 hother]
    exact hname

/-- Whether nothing keeps a place from being looked up. -/
def Open (d : Disk) (place : Place) : Prop := ∀ fault, ¬d.Hindered place fault

namespace Open

theorem text (h : d.Open place) : checkText (pathTo place) = .ok () := by
  cases htext : checkText (pathTo place) with
  | ok => rfl
  | error fault => exact absurd (.text htext) (h fault)

/-- What is looked up in a directory is short enough. -/
theorem short (h : d.Open place) {q : Place} {name : String} (hq : q ++ [name] <+: place)
    (hfits : Fits q) (hdir : d.entry? q = some .directory) : name.utf8ByteSize ≤ longestName :=
  Nat.not_lt.1 fun hlong => h _ (.long h.text hq hfits hdir hlong)

theorem fits (h : d.Open place) (htree : d.IsTree) (hentry : d.entry? place ≠ none) :
    Fits place := by
  by_contra hlong
  obtain ⟨q, name, hq, hfits, hnot⟩ := exists_first (P := Fits) (by simp [Fits]) hlong
  obtain ⟨more, rfl⟩ := hq
  rw [List.append_assoc] at hentry
  have hdir := htree.directory_append (by simp) hentry
  exact hnot (fits_concat hfits (h.short (List.prefix_append _ _) hfits hdir))

/-- A place that nothing hinders is found, or it is missing. -/
theorem find_eq (h : d.Open place) (htree : d.IsTree) (hwords : AreWords place) :
    d.find (pathTo place) = match d.entry? place with
      | some e => .ok (place, e)
      | none => .error .missing := by
  by_cases hentry : d.entry? place = none
  · -- the first place on the way at which there is nothing, or that cannot be looked up
    obtain ⟨q, name, hway, ⟨hfits, hq⟩, hnot⟩ :=
      exists_first (P := fun q => Fits q ∧ d.entry? q ≠ none) (by simp [Fits, entry?])
        fun hplace => hplace.2 hentry
    have hname : (Part.name name).Proper := hwords name (hway.subset (by simp))
    cases hfound : d.entry? q with
    | none => exact absurd hfound hq
    | some e =>
      cases e with
      | file content => exact absurd (.file h.text hway hfits hfound) (h _)
      | directory =>
        have hshort := h.short hway hfits hfound
        have hnone : d.entry? (q ++ [name]) = none := by
          by_contra hsome
          exact hnot ⟨fits_concat hfits hshort, hsome⟩
        have hstep : d.step q name = .error .missing := by
          rw [step_entry hname hfound hshort, hnone]
        rw [hentry]
        exact find_of_step_error htree h.text hwords hway hfits hq hstep
  · exact find_of_walk h.text hwords (walk_of_entry htree hwords (h.fits htree hentry) hentry)

theorem exists?_of_file (h : d.Open place) (htree : d.IsTree) (hwords : AreWords place)
    {content : Content} (hfile : d.entry? place = some (.file content)) :
    d.exists? (pathTo place) (some .file) = .ok true := by
  rw [exists?, h.find_eq htree hwords, hfile]
  rfl

/-- Where nothing is in the way, a place without a file is just not there. -/
theorem exists?_of_not_file (h : d.Open place) (htree : d.IsTree) (hwords : AreWords place)
    (hno : ∀ content, d.entry? place ≠ some (.file content)) :
    d.exists? (pathTo place) (some .file) = .ok false := by
  rw [exists?, h.find_eq htree hwords]
  cases hentry : d.entry? place with
  | none => rfl
  | some e =>
    cases e with
    | directory => rfl
    | file content => exact absurd hentry (hno content)

end Open

theorem exists?_of_hindered (htree : d.IsTree) (hwords : AreWords place) {fault : Fault}
    (h : d.Hindered place fault) (kind : Option Kind) :
    d.exists? (pathTo place) kind = .error fault := by
  rw [exists?, find_of_hindered htree hwords h]
  have hne := h.ne_missing
  cases fault <;> first | rfl | exact absurd rfl hne

/-! ## Places that the system takes -/

/-- Whether the system takes the path of a place and its names. -/
def Taken (place : Place) : Prop := checkText (pathTo place) = .ok () ∧ Fits place

instance (place : Place) : Decidable (Taken place) :=
  inferInstanceAs (Decidable (checkText (pathTo place) = .ok () ∧
    ∀ name ∈ place, name.utf8ByteSize ≤ longestName))

/-- Only a file can be on the way to a place that the system takes. -/
theorem open_iff_of_taken (h : Taken place) : d.Open place ↔
    ∀ q content, q <+: place → q ≠ place → d.entry? q ≠ some (.file content) := by
  constructor
  · intro hopen q content ⟨more, hmore⟩ hne hfile
    subst hmore
    obtain ⟨name, more, rfl⟩ := List.exists_cons_of_ne_nil fun hnil : more = [] =>
      hne (by rw [hnil, List.append_nil])
    exact hopen _ (.file h.1 ⟨more, (List.append_cons q name more).symm⟩ h.2.around hfile)
  · rintro hno fault (htext | @⟨q, name, content, -, hq, -, hfile⟩ | @⟨q, name, -, hq, -, -, hlong⟩)
    · rw [h.1] at htext
      cases htext
    · refine hno q content ((List.prefix_append _ _).trans hq) (fun heq => ?_) hfile
      rw [heq] at hq
      exact absurd hq.length_le (by simp)
    · exact absurd (h.2 name (hq.subset (by simp))) (Nat.not_le.2 hlong)

/-! ## Removing -/

theorem bare_of_file (htree : d.IsTree) {content : Content}
    (h : d.entry? place = some (.file content)) : d.Bare place := by
  intro name
  by_contra hname
  rw [htree.directory hname] at h
  cases h

theorem hasChildren_of_bare (htree : d.IsTree) (h : d.Bare place) : d.hasChildren place = false := by
  rw [hasChildren, List.any_eq_false]
  rintro ⟨q, e⟩ hmem hbelow
  simp only [Bool.and_eq_true, List.isPrefixOf_iff_prefix, bne_iff_ne] at hbelow
  obtain ⟨⟨more, rfl⟩, hne⟩ := hbelow
  obtain ⟨name, more, rfl⟩ := List.exists_cons_of_ne_nil fun hnil : more = [] =>
    hne (by rw [hnil, List.append_nil])
  have hsome : d.entry? (place ++ [name] ++ more) ≠ none :=
    (entry?_ne_none_iff (by simp)).2 ⟨e, by simpa using hmem⟩
  by_cases hnil : more = []
  · rw [hnil, List.append_nil] at hsome
    exact hsome (h name)
  · have hdir := htree.directory_append hnil hsome
    rw [h name] at hdir
    cases hdir

theorem children_of_find {p : Path} (h : d.find p = .ok (place, .directory)) :
    ∃ inside, d.children p = .ok inside ∧ (inside.isEmpty = true ↔ d.Bare place) := by
  refine ⟨_, by rw [children, h]; rfl, ?_⟩
  rw [List.isEmpty_iff, List.filterMap_eq_nil_iff]
  constructor
  · intro hnone name
    by_contra hname
    obtain ⟨e, he⟩ := (entry?_ne_none_iff (by simp)).1 hname
    simpa using hnone _ he
  · rintro hbare ⟨q, e⟩ hmem
    obtain rfl | ⟨outer, name, rfl⟩ := List.eq_nil_or_concat' q
    · rfl
    · have hother : outer ≠ place := by
        rintro rfl
        exact (entry?_ne_none_iff (by simp)).2 ⟨e, hmem⟩ (hbare name)
      simp [hother]

theorem solid_of_directory (htree : d.IsTree) (h : d.entry? place = some .directory) :
    d.Solid place := by
  intro q hq
  by_cases heq : q = place
  · rw [heq, h]
  · exact htree.around_entry (by simp [h]) hq heq

variable {outer : Place} {name : String}

theorem slot_of_solid (hwords : AreWords (outer ++ [name])) (hfits : Fits outer)
    (htext : checkText (pathTo (outer ++ [name])) = .ok ()) (h : d.Solid outer) :
    d.slot (pathTo (outer ++ [name])) = .ok ⟨outer, some name, false⟩ := by
  rcases slot_of_clear hwords hfits htext fun q hq => .inr (h q hq) with ⟨_, hslot⟩ | ⟨hno, _⟩
  · exact hslot
  · exact absurd h hno

theorem remove_pathTo (htree : d.IsTree) (hwords : AreWords (outer ++ [name]))
    (h : d.Open (outer ++ [name])) {content : Content}
    (hfile : d.entry? (outer ++ [name]) = some (.file content)) :
    d.remove (pathTo (outer ++ [name])) = .ok (d.erase (outer ++ [name])) := by
  have hsome : d.entry? (outer ++ [name]) ≠ none := by simp [hfile]
  have hfits := h.fits htree hsome
  have hsolid := solid_of_directory htree (htree.directory hsome)
  have hlookUp : d.lookUp outer name = .ok (some (.file content)) := by
    rw [lookUp_of_fits (hfits name (by simp)), hfile]
  obtain ⟨_, hhere, hup⟩ := ne_of_proper (hwords name (by simp))
  simp [remove, slot_of_solid hwords hfits.around h.text hsolid, hlookUp, bind, Except.bind, pure,
    Except.pure]

theorem removeDir_pathTo (htree : d.IsTree) (hwords : AreWords (outer ++ [name]))
    (hfits : Fits (outer ++ [name])) (htext : checkText (pathTo (outer ++ [name])) = .ok ())
    (hdir : d.entry? (outer ++ [name]) = some .directory) (hbare : d.Bare (outer ++ [name])) :
    d.removeDir (pathTo (outer ++ [name])) = .ok (d.erase (outer ++ [name])) := by
  have hsolid := (solid_concat.1 (solid_of_directory htree hdir)).1
  have hlookUp : d.lookUp outer name = .ok (some .directory) := by
    rw [lookUp_of_fits (hfits name (by simp)), hdir]
  obtain ⟨_, hhere, hup⟩ := ne_of_proper (hwords name (by simp))
  simp [removeDir, slot_of_solid hwords hfits.around htext hsolid, hlookUp,
    hasChildren_of_bare htree hbare, bind, Except.bind, pure, Except.pure]

end AgentDocs.Store.Disk
