import AgentDocs.Proofs.Store.Entries
import Mathlib.Data.List.Induction

/-! # Where a file can be written

A file is written with the directories around it. On a disk this can be done exactly if the path
is one that the system takes, if every place around the file has a directory or nothing, and if no
directory has the place of the file. Then the directories are there, the file is there, and all
other places are as they were. -/
namespace AgentDocs.Store
open Text

/-! ## Paths of places -/

/-- Whether all names of a place can be written in a path. -/
def AreWords (place : Place) : Prop := ∀ name ∈ place, (Part.name name).Proper

theorem AreWords.append {place more : Place} (h : AreWords (place ++ more)) :
    AreWords place ∧ AreWords more :=
  ⟨fun name hname => h name (List.mem_append_left _ hname),
    fun name hname => h name (List.mem_append_right _ hname)⟩

/-- The path from the root to a place. -/
def pathTo (place : Place) : Path := ⟨"/" ++ joined "/" place⟩

/-- The fields of the path to a place, from last to first. -/
def fieldsTo (place : Place) : List (List Char) := (place.map String.toList).reverse ++ [[]]

theorem isAbsolute_pathTo (place : Place) : (pathTo place).isAbsolute = true := by
  simp [pathTo, Path.isAbsolute]

theorem split_pathTo {place : Place} (hne : place ≠ []) (h : AreWords place) :
    split '/' (pathTo place).text.toList = [] :: place.map String.toList := by
  have htext : (pathTo place).text.toList = '/' :: join ['/'] (place.map String.toList) := by
    simp [pathTo, joined]
  rw [htext, split, if_pos rfl, split_join (by simpa using hne)]
  intro field hfield
  obtain ⟨name, hname, rfl⟩ := List.mem_map.1 hfield
  exact (h name hname).2.2.2

theorem fields_pathTo {place : Place} (hne : place ≠ []) (h : AreWords place) :
    fields '/' (pathTo place).text = "" :: place := by
  rw [fields, split_pathTo hne h]
  simp [Function.comp_def]

theorem ofFields_fieldsTo (place : Place) : Path.ofFields (fieldsTo place) = pathTo place := by
  cases place with
  | nil => rfl
  | cons name place =>
    have hne : fieldsTo (name :: place) ≠ [[]] := fun h => by
      simpa [fieldsTo] using congrArg List.length h
    have hofFields : Path.ofFields (fieldsTo (name :: place))
        = ⟨String.ofList (join ['/'] (fieldsTo (name :: place)).reverse)⟩ := by
      unfold Path.ofFields
      split
      · rename_i heq
        exact absurd heq hne
      · rfl
    rw [hofFields]
    simp [fieldsTo, pathTo, joined, join]

theorem dropVoid_fieldsTo {place : Place} (h : AreWords place) :
    Path.dropVoid (fieldsTo place) = fieldsTo place := by
  induction place using List.reverseRecOn with
  | nil => rfl
  | append_singleton place name _ =>
    obtain ⟨hempty, hhere, hup, _⟩ := h name (by simp)
    obtain ⟨first, rest, hrest⟩ := List.exists_cons_of_ne_nil
      (show fieldsTo place ≠ [] by simp [fieldsTo])
    have hfields : fieldsTo (place ++ [name]) = name.toList :: first :: rest := by
      simp [← hrest, fieldsTo]
    rw [hfields, Path.dropVoid, Disk.ofField?_name hempty hhere hup]
    · rfl
    · simp

theorem around?_fieldsTo {place : Place} {name : String} (h : AreWords (place ++ [name])) :
    Path.around? (fieldsTo (place ++ [name])) = some (fieldsTo place) := by
  obtain ⟨first, rest, hrest⟩ := List.exists_cons_of_ne_nil
    (show fieldsTo place ≠ [] by simp [fieldsTo])
  have hfields : fieldsTo (place ++ [name]) = name.toList :: first :: rest := by
    simp [← hrest, fieldsTo]
  rw [Path.around?, dropVoid_fieldsTo h, hfields]
  rw [← dropVoid_fieldsTo h.append.1, hrest]

theorem reverse_split_pathTo {place : Place} (hne : place ≠ []) (h : AreWords place) :
    (split '/' (pathTo place).text.toList).reverse = fieldsTo place := by
  rw [split_pathTo hne h, List.reverse_cons, fieldsTo]

theorem parent?_pathTo {place : Place} {name : String} (h : AreWords (place ++ [name])) :
    (pathTo (place ++ [name])).parent? = some (pathTo place) := by
  rw [Path.parent?, reverse_split_pathTo (by simp) h, around?_fieldsTo h, Option.map_some,
    ofFields_fieldsTo]

theorem ancestors_eq {place : Place} (h : AreWords place) :
    (pathTo place).ancestors = pathTo place :: Path.outward (fieldsTo place) := by
  by_cases hne : place = []
  · subst hne
    have hsplit : Path.outward (split '/' (pathTo []).text.toList).reverse = [] := Path.outward_none rfl
    have hfields : Path.outward (fieldsTo []) = [] := Path.outward_none rfl
    rw [Path.ancestors, hsplit, hfields]
  · rw [Path.ancestors, reverse_split_pathTo hne h]

theorem ancestors_pathTo {place : Place} {name : String} (h : AreWords (place ++ [name])) :
    (pathTo (place ++ [name])).ancestors
      = pathTo (place ++ [name]) :: (pathTo place).ancestors := by
  rw [ancestors_eq h, Path.outward_some (around?_fieldsTo h), ofFields_fieldsTo,
    ancestors_eq h.append.1]

namespace Disk

/-! ## Paths that the system takes -/

theorem checkText_iff {p : Path} :
    checkText p = .ok () ↔
      '\x00' ∉ p.text.toList ∧ p.text ≠ "" ∧ p.text.utf8ByteSize ≤ longestPath := by
  unfold checkText
  split
  · rename_i h
    simpa using fun hno => absurd (by simpa using h) hno
  split
  · rename_i h
    simpa using fun _ hne => absurd (by simpa using h) hne
  split
  · rename_i h
    simpa using fun _ _ => h
  · rename_i hnul hempty hlong
    simpa using ⟨by simpa using hnul, by simpa using hempty, Nat.not_lt.1 hlong⟩

theorem text_pathTo (place : Place) (name : String) :
    ∃ slash, (pathTo (place ++ [name])).text = (pathTo place).text ++ (slash ++ name) := by
  cases place with
  | nil => exact ⟨"", by simp [pathTo, joined, join]⟩
  | cons first place =>
    refine ⟨"/", ?_⟩
    have hjoin := @join_append ['/'] ((first :: place).map String.toList) [name.toList]
      (by simp) (by simp)
    rw [← String.toList_inj]
    simpa [pathTo, joined, join] using hjoin

/-- Around a path that the system takes are directories that it takes. -/
theorem checkText_pathTo {place : Place} {name : String}
    (h : checkText (pathTo (place ++ [name])) = .ok ()) : checkText (pathTo place) = .ok () := by
  obtain ⟨more, hmore⟩ := text_pathTo place name
  obtain ⟨hnul, _, hsize⟩ := checkText_iff.1 h
  rw [hmore] at hnul hsize
  refine checkText_iff.2 ⟨fun hmem => hnul ?_, ?_, ?_⟩
  · rw [String.toList_append]
    exact List.mem_append_left _ hmem
  · simp [pathTo]
  · rw [String.utf8ByteSize_append] at hsize
    exact Nat.le_trans (Nat.le_add_right _ _) hsize

/-! ## Following names -/

/-- Whether all places up to a place have directories. -/
def Solid (d : Disk) (place : Place) : Prop := ∀ q, q <+: place → d.entry? q = some .directory

/-- Whether all places up to a place have directories or nothing. -/
def Clear (d : Disk) (place : Place) : Prop :=
  ∀ q, q <+: place → d.entry? q = none ∨ d.entry? q = some .directory

/-- Whether all names of a place are short enough to be looked up. -/
def Fits (place : Place) : Prop := ∀ name ∈ place, name.utf8ByteSize ≤ longestName

theorem solid_nil (d : Disk) : d.Solid [] := by
  intro q hq
  rw [List.prefix_nil.1 hq]
  rfl

theorem solid_concat {d : Disk} {place : Place} {name : String} :
    d.Solid (place ++ [name]) ↔
      d.Solid place ∧ d.entry? (place ++ [name]) = some .directory := by
  refine ⟨fun h => ⟨fun q hq => h q (hq.trans (List.prefix_append _ _)), h _ (List.prefix_refl _)⟩,
    fun ⟨h, hlast⟩ q hq => ?_⟩
  rcases List.prefix_concat_iff.1 hq with rfl | hq
  · exact hlast
  · exact h q hq

theorem Clear.around {d : Disk} {place more : Place} (h : d.Clear (place ++ more)) :
    d.Clear place := fun q hq => h q (hq.trans (List.prefix_append _ _))

theorem Fits.around {place more : Place} (h : Fits (place ++ more)) : Fits place :=
  fun name hname => h name (List.mem_append_left _ hname)

theorem ne_of_proper {name : String} (h : (Part.name name).Proper) :
    name ≠ "" ∧ name ≠ "." ∧ name ≠ ".." := by
  refine ⟨?_, ?_, ?_⟩ <;> rintro rfl
  · exact h.1 rfl
  · exact h.2.1 rfl
  · exact h.2.2.1 rfl

theorem step_entry {d : Disk} {place : Place} {name : String} (h : (Part.name name).Proper)
    (hdir : d.entry? place = some .directory) (hfits : name.utf8ByteSize ≤ longestName) :
    d.step place name = match d.entry? (place ++ [name]) with
      | some _ => .ok (place ++ [name])
      | none => .error .missing := by
  obtain ⟨hempty, hhere, hup⟩ := ne_of_proper h
  rw [step, if_neg (by simpa using hdir), if_neg (not_or.2 ⟨hempty, hhere⟩), if_neg hup, lookUp,
    if_neg (Nat.not_lt.2 hfits)]
  rfl

theorem step_ok {d : Disk} {place next : Place} {name : String} (h : (Part.name name).Proper)
    (hstep : d.step place name = .ok next) :
    d.entry? place = some .directory ∧ name.utf8ByteSize ≤ longestName ∧
      next = place ++ [name] := by
  have hnext := eq_of_step h hstep
  obtain ⟨hempty, hhere, hup⟩ := ne_of_proper h
  rw [step, if_neg (not_or.2 ⟨hempty, hhere⟩), if_neg hup] at hstep
  split at hstep
  · cases hstep
  · rename_i hdir
    obtain ⟨found, hfound, _⟩ := Except.exists_of_bind_ok hstep
    unfold lookUp at hfound
    split at hfound
    · cases hfound
    · rename_i hfits
      exact ⟨by simpa using hdir, Nat.not_lt.1 hfits, hnext⟩

theorem walk_concat {d : Disk} {place : Place} {name : String}
    (h : place.foldlM d.step [] = .ok place) :
    (place ++ [name]).foldlM d.step [] = d.step place name := by
  rw [List.foldlM_append, h]
  exact bind_pure (d.step place name)

/-- Names are followed as far as there are directories. -/
theorem walk_of_clear {d : Disk} {place : Place} (hwords : AreWords place) (hfits : Fits place)
    (h : d.Clear place) :
    d.Solid place ∧ place.foldlM d.step [] = .ok place ∨
      ¬d.Solid place ∧ place.foldlM d.step [] = .error .missing := by
  induction place using List.reverseRecOn with
  | nil => exact .inl ⟨d.solid_nil, rfl⟩
  | append_singleton place name ih =>
    rw [solid_concat]
    rcases ih hwords.append.1 hfits.around h.around with ⟨hsolid, hwalk⟩ | ⟨hsolid, hwalk⟩
    · have hstep := step_entry (hwords name (by simp)) (hsolid place (List.prefix_refl _))
        (hfits name (by simp))
      rw [walk_concat hwalk, hstep]
      rcases h (place ++ [name]) (List.prefix_refl _) with hnone | hdir
      · rw [hnone]
        exact .inr ⟨fun hboth => (nomatch hboth.2), rfl⟩
      · rw [hdir]
        exact .inl ⟨⟨hsolid, rfl⟩, rfl⟩
    · refine .inr ⟨fun hboth => hsolid hboth.1, ?_⟩
      rw [List.foldlM_append, hwalk]
      rfl

/-- Names that were followed into a directory led through directories. -/
theorem solid_of_walk {d : Disk} {place dir : Place} (hwords : AreWords place)
    (h : place.foldlM d.step [] = .ok dir) (hdir : d.entry? dir = some .directory) :
    d.Solid place ∧ Fits place ∧ dir = place := by
  induction place using List.reverseRecOn generalizing dir with
  | nil =>
    cases h
    exact ⟨d.solid_nil, by simp [Fits], rfl⟩
  | append_singleton place name ih =>
    rw [List.foldlM_append] at h
    obtain ⟨mid, hmid, hstep⟩ := Except.exists_of_bind_ok h
    obtain ⟨next, hstep, hreturn⟩ := Except.exists_of_bind_ok hstep
    cases hreturn
    obtain ⟨hmiddir, hfits, rfl⟩ := step_ok (hwords name (by simp)) hstep
    obtain ⟨hsolid, hfitsplace, rfl⟩ := ih hwords.append.1 hmid hmiddir
    refine ⟨solid_concat.2 ⟨hsolid, hdir⟩, fun other hother => ?_, rfl⟩
    rcases List.mem_append.1 hother with hother | hother
    · exact hfitsplace other hother
    · rw [List.mem_singleton.1 hother]
      exact hfits

/-! ## Files and directories at places -/

theorem origin_pathTo (d : Disk) (place : Place) : d.origin (pathTo place) = [] :=
  if_pos (isAbsolute_pathTo place)

theorem foldlM_fields_pathTo {d : Disk} {place : Place} (h : AreWords place) :
    (fields '/' (pathTo place).text).foldlM d.step (d.origin (pathTo place))
      = place.foldlM d.step [] := by
  rw [origin_pathTo]
  by_cases hne : place = []
  · subst hne
    rfl
  · rw [fields_pathTo hne h]
    rfl

/-- Whether a path leads to a directory is told for a place that could have one. -/
theorem exists?_pathTo {d : Disk} {place : Place} (hwords : AreWords place) (hfits : Fits place)
    (htext : checkText (pathTo place) = .ok ()) (h : d.Clear place) :
    d.Solid place ∧ d.exists? (pathTo place) (some .directory) = .ok true ∨
      ¬d.Solid place ∧ d.exists? (pathTo place) (some .directory) = .ok false := by
  rcases walk_of_clear hwords hfits h with ⟨hsolid, hwalk⟩ | ⟨hsolid, hwalk⟩
  · refine .inl ⟨hsolid, ?_⟩
    have hfind : d.find (pathTo place) = .ok (place, .directory) := by
      have hentry := hsolid place (List.prefix_refl _)
      rw [find, htext, foldlM_fields_pathTo hwords, hwalk]
      simp only [bind, Except.bind, hentry, pure, Except.pure]
    rw [exists?, hfind]
    rfl
  · refine .inr ⟨hsolid, ?_⟩
    have hfind : d.find (pathTo place) = .error .missing := by
      rw [find, htext, foldlM_fields_pathTo hwords, hwalk]
      rfl
    rw [exists?, hfind]

/-- The slot of a place is its last name, looked up where the other names lead. -/
theorem slot_pathTo {d : Disk} {place : Place} {name : String} (h : AreWords (place ++ [name])) :
    d.slot (pathTo (place ++ [name])) = (do
      checkText (pathTo (place ++ [name]))
      let dir ← place.foldlM d.step []
      if d.entry? dir = some .directory then .ok ⟨dir, some name, false⟩
      else .error .notADirectory) := by
  have hempty := (ne_of_proper (h name (by simp))).1
  have hall : (fields '/' (pathTo (place ++ [name])).text).reverse
      = name :: (place.reverse ++ [""]) := by
    rw [fields_pathTo (by simp) h]
    simp
  have hdrop : (name :: (place.reverse ++ [""])).dropWhile (·.isEmpty)
      = name :: (place.reverse ++ [""]) := by
    simp [hempty]
  have hlast : ((name :: (place.reverse ++ [""])).head? == some "") = false := by
    simp [hempty]
  have hwalk : (place.reverse ++ [""]).reverse.foldlM d.step [] = place.foldlM d.step [] := by
    rw [List.reverse_append, List.reverse_reverse]
    rfl
  rw [slot, hall, origin_pathTo]
  simp only [hdrop, hlast, hwalk]
  refine bind_congr fun _ => bind_congr fun dir => ?_
  by_cases hdir : d.entry? dir = some .directory
  · rw [if_pos hdir, if_neg (not_not_intro hdir)]
    rfl
  · rw [if_neg hdir, if_pos hdir]
    rfl

theorem slot_of_clear {d : Disk} {place : Place} {name : String}
    (hwords : AreWords (place ++ [name])) (hfits : Fits place)
    (htext : checkText (pathTo (place ++ [name])) = .ok ()) (h : d.Clear place) :
    d.Solid place ∧ d.slot (pathTo (place ++ [name])) = .ok ⟨place, some name, false⟩ ∨
      ¬d.Solid place ∧ d.slot (pathTo (place ++ [name])) = .error .missing := by
  rw [slot_pathTo hwords, htext]
  rcases walk_of_clear hwords.append.1 hfits h with ⟨hsolid, hwalk⟩ | ⟨hsolid, hwalk⟩
  · refine .inl ⟨hsolid, ?_⟩
    have hentry := hsolid place (List.prefix_refl _)
    simp [bind, Except.bind, hwalk, hentry]
  · refine .inr ⟨hsolid, ?_⟩
    rw [hwalk]
    rfl

theorem lookUp_of_fits {d : Disk} {place : Place} {name : String}
    (h : name.utf8ByteSize ≤ longestName) :
    d.lookUp place name = .ok (d.entry? (place ++ [name])) :=
  if_neg (Nat.not_lt.2 h)

/-- A directory is created where there is nothing, in a directory. -/
theorem createDir_pathTo {d : Disk} {place : Place} {name : String}
    (hwords : AreWords (place ++ [name])) (hfits : Fits (place ++ [name]))
    (htext : checkText (pathTo (place ++ [name])) = .ok ()) (hsolid : d.Solid place) :
    d.createDir (pathTo (place ++ [name])) = match d.entry? (place ++ [name]) with
      | some _ => .error .alreadyExists
      | none => .ok (d.set (place ++ [name]) .directory) := by
  have hclear : d.Clear place := fun q hq => .inr (hsolid q hq)
  obtain ⟨_, hhere, hup⟩ := ne_of_proper (hwords name (by simp))
  rcases slot_of_clear hwords hfits.around htext hclear with ⟨_, hslot⟩ | ⟨hno, _⟩
  · have hlookUp : d.lookUp place name = .ok (d.entry? (place ++ [name])) :=
      lookUp_of_fits (hfits name (by simp))
    cases hentry : d.entry? (place ++ [name]) <;>
      simp [createDir, hslot, hlookUp, hentry, bind, Except.bind, pure, Except.pure]
  · exact absurd hsolid hno

theorem createDir_missing {d : Disk} {place : Place} {name : String}
    (hwords : AreWords (place ++ [name])) (hfits : Fits place)
    (htext : checkText (pathTo (place ++ [name])) = .ok ()) (hclear : d.Clear place)
    (hsolid : ¬d.Solid place) : d.createDir (pathTo (place ++ [name])) = .error .missing := by
  rcases slot_of_clear hwords hfits htext hclear with ⟨hyes, _⟩ | ⟨_, hslot⟩
  · exact absurd hyes hsolid
  · rw [createDir, hslot]
    rfl

theorem isDir_of_solid {d : Disk} {place : Place} (hwords : AreWords place) (hfits : Fits place)
    (htext : checkText (pathTo place) = .ok ()) (h : d.Solid place) :
    d.isDir (pathTo place) = true := by
  rcases exists?_pathTo hwords hfits htext fun q hq => .inr (h q hq) with ⟨_, hexists⟩ | ⟨hno, _⟩
  · rw [isDir, hexists]
  · exact absurd h hno

/-- All directories up to a place are there, and no other place has changed. -/
def Paved (d : Disk) (place : Place) (d' : Disk) : Prop :=
  ∀ q, d'.entry? q = if q <+: place then some .directory else d.entry? q

theorem Paved.solid {d d' : Disk} {place : Place} (h : Paved d place d') : d'.Solid place :=
  fun q hq => by rw [h q, if_pos hq]

theorem paved_of_solid {d : Disk} {place : Place} (h : d.Solid place) : Paved d place d := by
  intro q
  split
  · rename_i hq
    exact h q hq
  · rfl

theorem Paved.concat {d d' : Disk} {place : Place} {name : String} (h : Paved d place d') :
    Paved d (place ++ [name]) (d'.set (place ++ [name]) .directory) := by
  intro q
  rw [entry?_set (by simp), h q]
  by_cases hlast : place ++ [name] = q
  · rw [if_pos hlast, if_pos (hlast ▸ List.prefix_refl _)]
  · have hiff : q <+: place ++ [name] ↔ q <+: place := by
      rw [List.prefix_concat_iff]
      exact or_iff_right fun heq => hlast heq.symm
    simp only [if_neg hlast, hiff]

theorem Paved.shift {d d' d'' : Disk} {place : Place} {name : String} (h : Paved d place d')
    (h' : Paved d' (place ++ [name]) d'') : Paved d (place ++ [name]) d'' := by
  intro q
  rw [h' q]
  split
  · rfl
  · rename_i hq
    rw [h q, if_neg fun hplace => hq (hplace.trans (List.prefix_append _ _))]

/-- A directory that could be in a directory is created, or it is there. -/
theorem created_of_solid {d : Disk} {place : Place} {name : String}
    (hwords : AreWords (place ++ [name])) (hfits : Fits (place ++ [name]))
    (htext : checkText (pathTo (place ++ [name])) = .ok ()) (hsolid : d.Solid place)
    (hlast : d.entry? (place ++ [name]) = none ∨ d.entry? (place ++ [name]) = some .directory) :
    ∃ d', Paved d (place ++ [name]) d' ∧
      (d.createDir (pathTo (place ++ [name])) = .ok d' ∨
        d.createDir (pathTo (place ++ [name])) = .error .alreadyExists ∧
          d.isDir (pathTo (place ++ [name])) = true ∧ d' = d) := by
  have hcreate := createDir_pathTo hwords hfits htext hsolid
  rcases hlast with hnone | hdir
  · rw [hnone] at hcreate
    exact ⟨_, (paved_of_solid hsolid).concat, .inl hcreate⟩
  · have hsolid' : d.Solid (place ++ [name]) := solid_concat.2 ⟨hsolid, hdir⟩
    rw [hdir] at hcreate
    exact ⟨d, paved_of_solid hsolid',
      .inr ⟨hcreate, isDir_of_solid hwords hfits htext hsolid', rfl⟩⟩

/-- Where directories can be, they are created. -/
theorem createFrom_of_clear {d : Disk} {place : Place} (hwords : AreWords place)
    (hfits : Fits place) (htext : checkText (pathTo place) = .ok ()) (h : d.Clear place) :
    ∃ d', d.createFrom (pathTo place).ancestors = (.ok (), d') ∧ Paved d place d' := by
  have hempty (place : Place) : (pathTo place).text.isEmpty = false := by simp [pathTo]
  induction place using List.reverseRecOn with
  | nil =>
    have hcreate : d.createDir (pathTo []) = .error .alreadyExists := rfl
    have hisDir := isDir_of_solid hwords hfits htext d.solid_nil
    refine ⟨d, ?_, paved_of_solid d.solid_nil⟩
    simp [ancestors_eq hwords, createFrom, hempty, hcreate, hisDir]
  | append_singleton place name ih =>
    rw [ancestors_pathTo hwords]
    have hlast := h _ (List.prefix_refl _)
    by_cases hsolid : d.Solid place
    · obtain ⟨d', hpaved, hcreate | ⟨hcreate, hisDir, rfl⟩⟩ :=
        created_of_solid hwords hfits htext hsolid hlast
      · exact ⟨d', by simp [createFrom, hempty, hcreate], hpaved⟩
      · exact ⟨d', by simp [createFrom, hempty, hcreate, hisDir], hpaved⟩
    · have hmissing := createDir_missing hwords hfits.around htext h.around hsolid
      obtain ⟨d₁, houter, hpaved₁⟩ :=
        ih hwords.append.1 hfits.around (checkText_pathTo htext) h.around
      have hsame : d₁.entry? (place ++ [name]) = d.entry? (place ++ [name]) := by
        rw [hpaved₁, if_neg fun hprefix => absurd hprefix.length_le (by simp)]
      obtain ⟨d', hpaved, hcreate | ⟨hcreate, hisDir, rfl⟩⟩ :=
        created_of_solid hwords hfits htext hpaved₁.solid (hsame ▸ hlast)
      · exact ⟨d', by simp [createFrom, hempty, hmissing, houter, hcreate], hpaved₁.shift hpaved⟩
      · exact ⟨d', by simp [createFrom, hempty, hmissing, houter, hcreate, hisDir],
          hpaved₁.shift hpaved⟩

/-! ## Writing -/

/-- Whether a file can be written at a place, with the directories around it. -/
structure Writable (d : Disk) (place : Place) : Prop where
  text : checkText (pathTo place) = .ok ()
  fits : Fits place
  around : ∀ q, q <+: place → q ≠ place → d.entry? q = none ∨ d.entry? q = some .directory
  free : d.entry? place ≠ some .directory

/-- A file is at a place, directories are around it, and no other place has changed. -/
def Wrote (d : Disk) (place : Place) (content : Content) (d' : Disk) : Prop :=
  ∀ q, d'.entry? q = if q = place then some (.file content)
    else if q <+: place then some .directory else d.entry? q

theorem write_pathTo {d : Disk} {place : Place} {name : String}
    (hwords : AreWords (place ++ [name])) (hfits : Fits (place ++ [name]))
    (htext : checkText (pathTo (place ++ [name])) = .ok ()) (hsolid : d.Solid place)
    (hfree : d.entry? (place ++ [name]) ≠ some .directory) (content : Content) :
    d.write (pathTo (place ++ [name])) content
      = .ok (d.set (place ++ [name]) (.file content)) := by
  have hclear : d.Clear place := fun q hq => .inr (hsolid q hq)
  obtain ⟨_, hhere, hup⟩ := ne_of_proper (hwords name (by simp))
  rcases slot_of_clear hwords hfits.around htext hclear with ⟨_, hslot⟩ | ⟨hno, _⟩
  · have hlookUp : d.lookUp place name = .ok (d.entry? (place ++ [name])) :=
      lookUp_of_fits (hfits name (by simp))
    cases hentry : d.entry? (place ++ [name]) with
    | none => simp [write, hslot, hlookUp, hentry, bind, Except.bind, pure, Except.pure]
    | some e =>
      cases e with
      | directory => exact absurd hentry hfree
      | file old => simp [write, hslot, hlookUp, hentry, bind, Except.bind, pure, Except.pure]
  · exact absurd hsolid hno

theorem slot_ok {d : Disk} {place : Place} {name : String} {s : Slot}
    (hwords : AreWords (place ++ [name]))
    (h : d.slot (pathTo (place ++ [name])) = .ok s) :
    checkText (pathTo (place ++ [name])) = .ok () ∧ d.Solid place ∧ Fits place ∧
      s = ⟨place, some name, false⟩ := by
  rw [slot_pathTo hwords] at h
  obtain ⟨_, htext, h⟩ := Except.exists_of_bind_ok h
  obtain ⟨dir, hwalk, h⟩ := Except.exists_of_bind_ok h
  split at h
  · rename_i hdir
    obtain rfl := Except.ok.inj h
    obtain ⟨hsolid, hfits, rfl⟩ := solid_of_walk hwords.append.1 hwalk hdir
    exact ⟨htext, hsolid, hfits, rfl⟩
  · cases h

/-- A file that was written is in a directory, and where none was. -/
theorem solid_of_write {d d' : Disk} {place : Place} {name : String} {content : Content}
    (hwords : AreWords (place ++ [name]))
    (h : d.write (pathTo (place ++ [name])) content = .ok d') :
    checkText (pathTo (place ++ [name])) = .ok () ∧ d.Solid place ∧ Fits (place ++ [name]) ∧
      d.entry? (place ++ [name]) ≠ some .directory := by
  obtain ⟨s, hslot, h⟩ := Except.exists_of_bind_ok h
  obtain ⟨htext, hsolid, hfits, rfl⟩ := slot_ok hwords hslot
  split at h
  · cases h
  · cases h
  · cases h
  · rename_i other _ _ hname
    obtain rfl : name = other := Option.some.inj hname
    split at h
    · cases h
    obtain ⟨found, hfound, h⟩ := Except.exists_of_bind_ok h
    rw [lookUp] at hfound
    split at hfound
    · cases hfound
    · rename_i hshort
      cases hfound
      refine ⟨htext, hsolid, fun word hword => ?_, fun hdir => ?_⟩
      · rcases List.mem_append.1 hword with hword | hword
        · exact hfits word hword
        · rw [List.mem_singleton.1 hword]
          exact Nat.not_lt.1 hshort
      · rw [hdir] at h
        cases h

/-- A file that was written could be written before directories were created. -/
theorem writable_of_write {d d₁ d' : Disk} {place : Place} {name : String} {content : Content}
    (hwords : AreWords (place ++ [name])) (hdirs : AddsDirs d d₁)
    (h : d₁.write (pathTo (place ++ [name])) content = .ok d') :
    d.Writable (place ++ [name]) := by
  obtain ⟨htext, hsolid, hfits, hfree⟩ := solid_of_write hwords h
  refine ⟨htext, hfits, fun q hq hne => ?_, fun hdir => ?_⟩
  · have hq' : q <+: place := (List.prefix_concat_iff.1 hq).resolve_left hne
    rcases hdirs q with hsame | ⟨hnone, _⟩
    · exact .inr (hsame ▸ hsolid q hq')
    · exact .inl hnone
  · rcases hdirs (place ++ [name]) with hsame | ⟨hnone, _⟩
    · exact hfree (hsame.trans hdir)
    · rw [hdir] at hnone
      cases hnone

theorem Paved.wrote {d d₁ : Disk} {place : Place} {name : String} (h : Paved d place d₁)
    (content : Content) :
    Wrote d (place ++ [name]) content (d₁.set (place ++ [name]) (.file content)) := by
  intro q
  rw [entry?_set (by simp), h q]
  by_cases hlast : place ++ [name] = q
  · rw [if_pos hlast, if_pos hlast.symm]
  · have hiff : q <+: place ++ [name] ↔ q <+: place := by
      rw [List.prefix_concat_iff]
      exact or_iff_right fun heq => hlast heq.symm
    simp only [if_neg hlast, if_neg (Ne.symm hlast), hiff]

/-- Whether one of two places is around the other. -/
def Clash (p q : Place) : Prop := p ≠ q ∧ (p <+: q ∨ q <+: p)

/-- Where a file was written, another can be written exactly if it could be before and neither
file needs a directory in place of the other. -/
theorem Wrote.writable_iff {d d' : Disk} {p : Place} {content : Content} (hp : d.Writable p)
    (h : Wrote d p content d') (q : Place) : d'.Writable q ↔ d.Writable q ∧ ¬Clash p q := by
  constructor
  · intro hq
    refine ⟨⟨hq.text, hq.fits, fun r hr hne => ?_, fun hdir => ?_⟩, ?_⟩
    · have hr' := hq.around r hr hne
      rw [h r] at hr'
      split at hr'
      · simp at hr'
      split at hr'
      · rename_i hrp hprefix
        exact hp.around r hprefix hrp
      · exact hr'
    · have hfree := hq.free
      rw [h q] at hfree
      split at hfree
      · rename_i heq
        exact hp.free (heq ▸ hdir)
      split at hfree
      · exact hfree rfl
      · exact hfree hdir
    · rintro ⟨hne, hpq | hqp⟩
      · have hfile := hq.around p hpq hne
        rw [h p, if_pos rfl] at hfile
        simp at hfile
      · refine hq.free ?_
        rw [h q, if_neg (Ne.symm hne), if_pos hqp]
  · rintro ⟨hq, hclash⟩
    refine ⟨hq.text, hq.fits, fun r hr hne => ?_, ?_⟩
    · rw [h r]
      split
      · rename_i heq
        exact absurd ⟨heq ▸ hne, .inl (heq ▸ hr)⟩ hclash
      split
      · exact .inr rfl
      · exact hq.around r hr hne
    · rw [h q]
      split
      · simp
      split
      · rename_i hne hprefix
        exact absurd ⟨Ne.symm hne, .inr hprefix⟩ hclash
      · exact hq.free

/-! ## What was written stays -/

/-- Whether a file with a content is at a place, in directories. -/
structure Has (d : Disk) (place : Place) (content : Content) : Prop where
  file : d.entry? place = some (.file content)
  around : ∀ q, q <+: place → q ≠ place → d.entry? q = some .directory

theorem Wrote.has {d d' : Disk} {place : Place} {content : Content}
    (h : Wrote d place content d') : d'.Has place content where
  file := by rw [h place, if_pos rfl]
  around q hq hne := by rw [h q, if_neg hne, if_pos hq]

theorem Has.wrote {d d' : Disk} {p q : Place} {old content : Content} (hq : d.Has q old)
    (hp : d.Writable p) (h : Wrote d p content d') (hne : p ≠ q) : d'.Has q old where
  file := by
    rw [h q, if_neg (Ne.symm hne)]
    split
    · rename_i hprefix
      have haround := hp.around q hprefix (Ne.symm hne)
      rw [hq.file] at haround
      simp at haround
    · exact hq.file
  around r hr hrne := by
    rw [h r]
    split
    · rename_i heq
      exact absurd (heq ▸ hq.around r hr hrne) hp.free
    split
    · rfl
    · exact hq.around r hr hrne

theorem read_of_has {d : Disk} {place : Place} {name : String} {content : Content}
    (hwords : AreWords (place ++ [name])) (hfits : Fits (place ++ [name]))
    (htext : checkText (pathTo (place ++ [name])) = .ok ()) (h : d.Has (place ++ [name]) content) :
    d.read (pathTo (place ++ [name])) = .ok content := by
  have hsolid : d.Solid place := fun q hq =>
    h.around q (hq.trans (List.prefix_append _ _)) fun heq =>
      absurd (heq ▸ hq).length_le (by simp)
  have hclear : d.Clear place := fun q hq => .inr (hsolid q hq)
  have hwalk : (place ++ [name]).foldlM d.step [] = .ok (place ++ [name]) := by
    rcases walk_of_clear hwords.append.1 hfits.around hclear with ⟨_, hwalk⟩ | ⟨hno, _⟩
    · have hstep := step_entry (hwords name (by simp)) (hsolid place (List.prefix_refl _))
        (hfits name (by simp))
      rw [h.file] at hstep
      rw [walk_concat hwalk, hstep]
    · exact absurd hsolid hno
  simp only [read, find, htext, foldlM_fields_pathTo hwords, hwalk, h.file, bind, Except.bind,
    pure, Except.pure]

end Disk
end AgentDocs.Store
