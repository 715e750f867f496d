import AgentDocs.Proofs.Path.Absolute
import AgentDocs.Proofs.Path.Inside
import Mathlib.Data.List.Infix

/-! # From a path outwards

The directory around a path has its parts without the last one. From a path that begins at the
root, the directories around it are all fronts of its parts, down to the root. -/
namespace AgentDocs.Path
open Text

/-! ## One step outwards -/

/-- A field more at the end is one part more, unless it is void. -/
theorem parts_ofFields_cons {field : List Char} {fields : List (List Char)} (hfield : '/' ∉ field)
    (hslash : ∀ f ∈ fields, '/' ∉ f) (hne : fields ≠ []) :
    (ofFields (field :: fields)).parts
      = (ofFields fields).parts ++ (Part.ofField? false field).toList := by
  have hlast : [field].filterMap (Part.ofField? false) = (Part.ofField? false field).toList := by
    cases h : Part.ofField? false field <;> simp [h]
  have hcons : (ofFields (field :: fields)).parts = partsOfFields (fields.reverse ++ [field]) := by
    rw [parts_ofFields (List.forall_mem_cons.2 ⟨hfield, hslash⟩) (by simpa using fun _ => hne),
      List.reverse_cons]
  by_cases hroot : fields = [[]]
  · subst hroot
    rw [hcons, ← hlast]
    rfl
  · rw [hcons, parts_ofFields hslash hroot, ← hlast]
    match hrev : fields.reverse with
    | [] => exact absurd (List.reverse_eq_nil_iff.1 hrev) hne
    | [[]] => exact absurd (by simpa using congrArg List.reverse hrev) hroot
    | [] :: second :: rest =>
      simp only [List.cons_append, partsOfFields, ← List.filterMap_append]
    | (c :: cs) :: rest =>
      simp only [List.cons_append, partsOfFields, List.filterMap_append, List.append_assoc]

theorem parts_ofFields_dropVoid {fields : List (List Char)} (hslash : ∀ f ∈ fields, '/' ∉ f) :
    (ofFields (dropVoid fields)).parts = (ofFields fields).parts := by
  fun_induction dropVoid fields with
  | case1 => rfl
  | case2 => rfl
  | case3 => rfl
  | case4 field rest hrest hvoid ih =>
    obtain ⟨hfield, hslash⟩ := List.forall_mem_cons.1 hslash
    rw [ih hslash, parts_ofFields_cons hfield hslash hrest,
      Option.not_isSome_iff_eq_none.1 hvoid, Option.toList_none, List.append_nil]

/-- No void field is last where a field stands before it. -/
theorem isSome_of_dropVoid {fields rest : List (List Char)} {last field : List Char}
    (h : dropVoid fields = last :: field :: rest) :
    (Part.ofField? false last).isSome = true := by
  fun_induction dropVoid fields with
  | case1 => cases h
  | case2 => cases h
  | case3 first rest _ hpart =>
    obtain ⟨rfl, _⟩ := List.cons.inj h
    exact hpart
  | case4 _ _ _ _ ih => exact ih h

theorem isSome_ofField?_true {field : List Char} (h : field ≠ []) :
    (Part.ofField? true field).isSome = true := by
  unfold Part.ofField?
  split
  · exact absurd rfl h
  all_goals rfl

/-- The fields around a path have its parts without the last one. -/
theorem parts_of_around? {fields outer : List (List Char)} (hslash : ∀ f ∈ fields, '/' ∉ f)
    (h : around? fields = some outer) :
    ∃ part, (ofFields fields).parts = (ofFields outer).parts ++ [part] := by
  have hdrop : ∀ f ∈ dropVoid fields, '/' ∉ f :=
    fun f hf => hslash f ((dropVoid_suffix fields).subset hf)
  rw [← parts_ofFields_dropVoid hslash]
  unfold around? at h
  split at h
  · cases h
  · rename_i last hd
    split at h
    · cases h
    · rename_i hlast
      cases h
      have hne : last ≠ [] := by simpa using hlast
      obtain ⟨part, hpart⟩ := Option.isSome_iff_exists.1 (isSome_ofField?_true hne)
      obtain ⟨c, cs, rfl⟩ := List.exists_cons_of_ne_nil hne
      rw [hd] at hdrop ⊢
      refine ⟨part, ?_⟩
      rw [parts_ofFields hdrop (by simp)]
      show (Part.ofField? true (c :: cs)).toList ++ [] = [part]
      rw [hpart]
      rfl
  · rename_i last field rest hd
    cases h
    obtain ⟨part, hpart⟩ := Option.isSome_iff_exists.1 (isSome_of_dropVoid hd)
    rw [hd] at hdrop ⊢
    obtain ⟨hlast, hrest⟩ := List.forall_mem_cons.1 hdrop
    refine ⟨part, ?_⟩
    rw [parts_ofFields_cons hlast hrest (List.cons_ne_nil _ _), parts_ofFields_dropVoid hrest, hpart]
    rfl

theorem notMem_of_mem_reverse_split {text : List Char} :
    ∀ f ∈ (split '/' text).reverse, '/' ∉ f :=
  fun _ hf => notMem_of_mem_split (List.mem_reverse.1 hf)

theorem ofFields_split {p : Path} (h : p.text ≠ "") :
    ofFields (split '/' p.text.toList).reverse = p := by
  have hne : (split '/' p.text.toList).reverse ≠ [[]] := by
    intro hsplit
    have hjoin := join_split '/' p.text.toList
    rw [List.reverse_eq_iff.1 hsplit] at hjoin
    exact h (String.toList_eq_nil_iff.1 hjoin.symm)
  unfold ofFields
  split
  · rename_i heq
    exact absurd heq hne
  · rw [List.reverse_reverse, join_split, String.ofList_toList]

/-- The directory around a path has its parts without the last one. -/
theorem parts_parent? {p dir : Path} (h : p.parent? = some dir) :
    ∃ part, p.parts = dir.parts ++ [part] := by
  obtain ⟨outer, houter, rfl⟩ := Option.map_eq_some_iff.1 h
  have htext : p.text ≠ "" := by
    intro htext
    rw [htext] at houter
    cases houter
  have hparts := parts_of_around? notMem_of_mem_reverse_split houter
  rwa [ofFields_split htext] at hparts

/-- Only the root has no directory around it, of all that begins at the root. -/
theorem parts_of_around?_eq_none {fields : List (List Char)} (hslash : ∀ f ∈ fields, '/' ∉ f)
    (hroot : fields.getLast? = some []) (h : around? fields = none) :
    (ofFields fields).parts = [.root] := by
  rw [← parts_ofFields_dropVoid hslash]
  rw [← getLast?_dropVoid] at hroot
  unfold around? at h
  split at h
  · rename_i hd
    rw [hd] at hroot
    cases hroot
  · rename_i last hd
    rw [hd] at hroot ⊢
    cases hroot
    rfl
  · cases h

/-- What has no directory around it does not end with a name. -/
theorem parts_ne_of_around?_eq_none {fields : List (List Char)} (hslash : ∀ f ∈ fields, '/' ∉ f)
    (h : around? fields = none) (ps : List Part) (name : String) :
    (ofFields fields).parts ≠ ps ++ [.name name] := by
  rw [← parts_ofFields_dropVoid hslash]
  intro hparts
  have hlast := congrArg List.getLast? hparts
  rw [List.getLast?_concat] at hlast
  unfold around? at h
  split at h
  · rename_i hvoid
    rw [hvoid] at hlast
    cases hlast
  · rename_i last hvoid
    split at h
    · rename_i hempty
      rw [hvoid, List.isEmpty_iff.1 hempty] at hlast
      cases hlast
    · cases h
  · cases h

/-- Around what ends with a name there is a directory. -/
theorem exists_parent?_of_name {p dir : Path} {name : String}
    (h : p.parts = dir.parts ++ [.name name]) : ∃ d, p.parent? = some d ∧ d.parts = dir.parts := by
  have htext : p.text ≠ "" := by
    intro htext
    have hlast := congrArg List.getLast? h
    rw [parts, htext, List.getLast?_concat] at hlast
    cases hlast
  cases hout : around? (split '/' p.text.toList).reverse with
  | none =>
    refine absurd ?_ (parts_ne_of_around?_eq_none notMem_of_mem_reverse_split hout dir.parts name)
    rw [ofFields_split htext, h]
  | some outer =>
    have hd : p.parent? = some (ofFields outer) := by rw [parent?, hout, Option.map_some]
    obtain ⟨last, hlast⟩ := parts_parent? hd
    exact ⟨_, hd, (List.append_inj' (hlast.symm.trans h) rfl).1⟩

/-! ## All the way outwards -/

/-- Directories from within a place out to the root, each with one part less. -/
inductive Outwards : List Part → List Path → Prop
  | root : Outwards [.root] []
  | step {ps : List Part} {part : Part} {dir : Path} {dirs : List Path} :
    dir.isAbsolute = true → dir.parts = ps → Outwards ps dirs →
      Outwards (ps ++ [part]) (dir :: dirs)

theorem outwards_outward {fields : List (List Char)} (hslash : ∀ f ∈ fields, '/' ∉ f)
    (hroot : fields.getLast? = some []) : Outwards (ofFields fields).parts (outward fields) := by
  fun_induction outward fields with
  | case1 fields hout =>
    rw [parts_of_around?_eq_none hslash hroot hout]
    exact .root
  | case2 fields outer hout ih =>
    obtain ⟨part, hpart⟩ := parts_of_around? hslash hout
    have hrootOuter : outer.getLast? = some [] := getLast?_around? hroot hout
    have hslashOuter : ∀ f ∈ outer, '/' ∉ f := fun f hf => hslash f ((around?_suffix hout).subset hf)
    rw [hpart]
    exact .step (isAbsolute_ofFields hrootOuter) rfl (ih hslashOuter hrootOuter)

theorem getLast?_split {p : Path} (h : p.isAbsolute = true) :
    (split '/' p.text.toList).reverse.getLast? = some [] := by
  obtain ⟨cs, hcs⟩ := exists_of_isAbsolute h
  simp [hcs, split]

theorem text_ne_empty {p : Path} (h : p.isAbsolute = true) : p.text ≠ "" := by
  intro htext
  rw [isAbsolute, htext] at h
  cases h

/-- The directories around a path from the root. -/
theorem outwards_ancestors {p : Path} (h : p.isAbsolute = true) :
    Outwards p.parts p.ancestors.tail := by
  have hout := outwards_outward notMem_of_mem_reverse_split (getLast?_split h)
  rwa [ofFields_split (text_ne_empty h)] at hout

namespace Outwards
variable {ps : List Part} {dirs : List Path}

theorem ne_nil (h : Outwards ps dirs) : ps ≠ [] := by
  cases h with
  | root => exact List.cons_ne_nil _ _
  | step => exact List.append_ne_nil_of_right_ne_nil _ (List.cons_ne_nil _ _)

/-- Each is a directory with fewer parts. -/
theorem prefix_of_mem (h : Outwards ps dirs) {dir : Path} (hdir : dir ∈ dirs) :
    dir.isAbsolute = true ∧ dir.parts <+: ps := by
  induction h with
  | root => cases hdir
  | step habs hparts _ ih =>
    rcases List.mem_cons.1 hdir with rfl | hdir
    · exact ⟨habs, hparts ▸ List.prefix_append _ _⟩
    · exact ⟨(ih hdir).1, (ih hdir).2.trans (List.prefix_append _ _)⟩

/-- None with fewer parts is left out. -/
theorem exists_of_prefix (h : Outwards ps dirs) {qs : List Part} (hne : qs ≠ []) (hqs : qs <+: ps)
    (hless : qs ≠ ps) : ∃ dir ∈ dirs, dir.parts = qs := by
  induction h with
  | root =>
    rcases List.prefix_cons_iff.1 hqs with rfl | ⟨more, rfl, hmore⟩
    · exact absurd rfl hne
    · rw [List.prefix_nil.1 hmore] at hless
      exact absurd rfl hless
  | @step ps _ dir _ _ hparts _ ih =>
    have hshort : qs <+: ps := (List.prefix_concat_iff.1 hqs).resolve_left hless
    by_cases hsame : qs = ps
    · exact ⟨dir, List.mem_cons_self, hparts.trans hsame.symm⟩
    · obtain ⟨d, hd, hdparts⟩ := ih hshort hsame
      exact ⟨d, List.mem_cons_of_mem _ hd, hdparts⟩

end Outwards

/-- A directory is right around what has one part more. -/
theorem exists_parent?_iff {p dir : Path} (h : dir.isAbsolute = true) :
    (∃ d, p.parent? = some d ∧ d.parts = dir.parts) ↔ ∃ part, p.parts = dir.parts ++ [part] := by
  constructor
  · rintro ⟨d, hd, hparts⟩
    rw [← hparts]
    exact parts_parent? hd
  · rintro ⟨part, hparts⟩
    obtain ⟨rest, hrest⟩ := isAbsolute_iff.1 h
    have habs : p.isAbsolute = true := isAbsolute_iff.2 ⟨rest ++ [part], by rw [hparts, hrest]; rfl⟩
    cases hout : around? (split '/' p.text.toList).reverse with
    | none =>
      have hroot := parts_of_around?_eq_none notMem_of_mem_reverse_split (getLast?_split habs) hout
      rw [ofFields_split (text_ne_empty habs), hparts, hrest] at hroot
      simp at hroot
    | some outer =>
      have hd : p.parent? = some (ofFields outer) := by rw [parent?, hout, Option.map_some]
      obtain ⟨last, hlast⟩ := parts_parent? hd
      exact ⟨_, hd, (List.append_inj' (hlast.symm.trans hparts) rfl).1⟩

theorem mem_ancestors {p dir : Path} :
    dir ∈ p.ancestors ↔ dir = p ∨ dir ∈ p.ancestors.tail := List.mem_cons

theorem isAbsolute_of_mem_ancestors {p dir : Path} (h : p.isAbsolute = true)
    (hdir : dir ∈ p.ancestors) : dir.isAbsolute = true := by
  rcases mem_ancestors.1 hdir with rfl | hdir
  · exact h
  · exact ((outwards_ancestors h).prefix_of_mem hdir).1

/-- The path and the directories around it are those with a front of its parts. -/
theorem exists_mem_ancestors_iff {p : Path} (h : p.isAbsolute = true) {qs : List Part} :
    (∃ dir ∈ p.ancestors, dir.parts = qs) ↔ qs ≠ [] ∧ qs <+: p.parts := by
  have hout := outwards_ancestors h
  constructor
  · rintro ⟨dir, hdir, rfl⟩
    rcases mem_ancestors.1 hdir with rfl | hdir
    · exact ⟨hout.ne_nil, List.prefix_refl _⟩
    · obtain ⟨habs, hpre⟩ := hout.prefix_of_mem hdir
      exact ⟨(outwards_ancestors habs).ne_nil, hpre⟩
  · rintro ⟨hne, hpre⟩
    by_cases hsame : qs = p.parts
    · exact ⟨p, mem_ancestors.2 (.inl rfl), hsame.symm⟩
    · obtain ⟨dir, hdir, hparts⟩ := hout.exists_of_prefix hne hpre hsame
      exact ⟨dir, mem_ancestors.2 (.inr hdir), hparts⟩

/-- A directory further out is around the directory right around. -/
theorem exists_parent?_of_mem_ancestors {p dir : Path} (h : p.isAbsolute = true)
    (hdir : dir ∈ p.ancestors) (hne : dir.parts ≠ p.parts) :
    ∃ around, p.parent? = some around ∧ dir.parts <+: around.parts := by
  obtain ⟨hsome, hpre⟩ := (exists_mem_ancestors_iff h).1 ⟨dir, hdir, rfl⟩
  obtain ⟨front, last, hparts⟩ : ∃ front last, p.parts = front ++ [last] :=
    ⟨_, _, (List.dropLast_concat_getLast (outwards_ancestors h).ne_nil).symm⟩
  have hfront : dir.parts <+: front :=
    (List.prefix_concat_iff.1 (hparts ▸ hpre)).resolve_left (hparts ▸ hne)
  have hfne : front ≠ [] := fun hnil => hsome (List.prefix_nil.1 (hnil ▸ hfront))
  obtain ⟨d, hd, rfl⟩ :=
    (exists_mem_ancestors_iff h).2 ⟨hfne, hparts ▸ List.prefix_append front [last]⟩
  obtain ⟨around, haround, hsame⟩ :=
    (exists_parent?_iff (isAbsolute_of_mem_ancestors h hd)).2 ⟨last, hparts⟩
  exact ⟨around, haround, hsame ▸ hfront⟩

/-! ## Outwards to a directory -/

/-- Nothing is around the root, and around the path without parts. -/
theorem parts_of_around?_none {fields : List (List Char)} (hslash : ∀ f ∈ fields, '/' ∉ f)
    (h : around? fields = none) :
    (ofFields fields).parts = [] ∨ (ofFields fields).parts = [.root] := by
  rw [← parts_ofFields_dropVoid hslash]
  unfold around? at h
  split at h
  · rename_i hd
    rw [hd]
    exact .inl rfl
  · rename_i last hd
    split at h
    · rename_i hlast
      rw [hd, List.isEmpty_iff.1 hlast]
      exact .inr rfl
    · cases h
  · cases h

/-- The walk outwards is inside a directory until it comes to it, and drops one part at a time. -/
theorem parts_takeWhile_outward {dir : Path} {fields : List (List Char)} {below : List Part}
    (hslash : ∀ f ∈ fields, '/' ∉ f) (hparts : (ofFields fields).parts = dir.parts ++ below)
    (hroot : .root ∉ below) :
    ((ofFields fields :: outward fields).takeWhile (·.isWithin dir)).map parts
      = (below.inits.map (dir.parts ++ ·)).reverse := by
  have hwithin : (ofFields fields).isWithin dir = true :=
    List.isPrefixOf_iff_prefix.2 (hparts ▸ List.prefix_append _ _)
  rw [List.takeWhile_cons, if_pos hwithin, List.map_cons, hparts]
  fun_induction outward fields generalizing below with
  | case1 fields hout =>
    have hbelow : below = [] := by
      rcases parts_of_around?_none hslash hout with h | h <;> rw [h] at hparts
      · exact (List.append_eq_nil_iff.1 hparts.symm).2
      · rcases List.append_eq_singleton_iff.1 hparts.symm with ⟨-, rfl⟩ | ⟨-, hbelow⟩
        · exact absurd List.mem_cons_self hroot
        · exact hbelow
    rw [hbelow]
    rfl
  | case2 fields outer hout ih =>
    obtain ⟨part, hpart⟩ := parts_of_around? hslash hout
    have hslashOuter : ∀ f ∈ outer, '/' ∉ f := fun f hf => hslash f ((around?_suffix hout).subset hf)
    rcases List.eq_nil_or_concat below with rfl | ⟨front, last, rfl⟩
    · have hshort : (ofFields outer).isWithin dir = false := by
        rw [isWithin, Bool.eq_false_iff, Ne, List.isPrefixOf_iff_prefix]
        intro hpre
        have hlength := hpre.length_le
        rw [hpart, List.append_nil] at hparts
        rw [← hparts, List.length_append, List.length_singleton] at hlength
        omega
      rw [List.takeWhile_cons, if_neg (by simp [hshort])]
      rfl
    · rw [List.concat_eq_append] at hparts hroot ⊢
      rw [hpart, ← List.append_assoc] at hparts
      have hparts := (List.append_inj' hparts rfl).1
      have hwithin : (ofFields outer).isWithin dir = true :=
        List.isPrefixOf_iff_prefix.2 (hparts ▸ List.prefix_append _ _)
      have hroot : .root ∉ front := fun h => hroot (List.mem_append_left _ h)
      rw [List.takeWhile_cons, if_pos hwithin, List.map_cons, hparts,
        ih hslashOuter hparts hroot hwithin]
      simp [List.inits_append]

/-- What is below a directory does not begin at the root again. -/
theorem root_notMem_below {p dir : Path} {below : List Part}
    (hparts : p.parts = dir.parts ++ below) (habsolute : p.isAbsolute = dir.isAbsolute) :
    .root ∉ below := by
  have hwritten := written_parts p
  cases hdir : dir.parts with
  | nil =>
    have hrelative : p.isAbsolute = false := by
      rw [habsolute, Bool.eq_false_iff, Ne, isAbsolute_iff, hdir]
      exact fun ⟨_, h⟩ => nomatch h
    rw [hdir, List.nil_append] at hparts
    exact fun hroot => ne_root_of_mem_parts hrelative .root (hparts ▸ hroot) rfl
  | cons first rest =>
    rw [hparts, hdir] at hwritten
    exact fun hroot => (hwritten.2 .root (List.mem_append_right _ hroot)).2.1 rfl

/-- The directories from a place outwards to one around it are those with the parts between. -/
theorem parts_takeWhile_ancestors {p dir : Path} {below : List Part}
    (hbelow : p.below? dir = some below) (habsolute : p.isAbsolute = dir.isAbsolute) :
    (p.ancestors.takeWhile fun d => d.isWithin dir).map parts
      = (below.inits.map (dir.parts ++ ·)).reverse := by
  have hparts := parts_of_below? hbelow
  have hroot := root_notMem_below hparts habsolute
  by_cases htext : p.text = ""
  · obtain ⟨text⟩ := p
    subst htext
    have hnone : around? [[]] = none := rfl
    obtain ⟨hdir, rfl⟩ := List.append_eq_nil_iff.1 hparts.symm
    have hwithin : isWithin ⟨""⟩ dir = true := by rw [isWithin, hdir]; rfl
    rw [ancestors, show (split '/' (Path.mk "").text.toList).reverse = [[]] from rfl,
      outward_none hnone, List.takeWhile_cons, if_pos hwithin]
    exact congrArg (fun parts => [parts]) hparts
  · rw [← ofFields_split htext] at hparts
    rw [ancestors]
    nth_rewrite 1 [← ofFields_split htext]
    exact parts_takeWhile_outward notMem_of_mem_reverse_split hparts hroot

end AgentDocs.Path
