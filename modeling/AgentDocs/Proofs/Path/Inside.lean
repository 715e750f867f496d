import AgentDocs.Proofs.Path.Normal

/-! # Places inside a directory

What lies inside of a directory goes on with names behind its parts. The directories around a path
are spelled by a front of its text, so that the walk outwards from a place inside stays inside
until it reaches the directory. -/
namespace AgentDocs.Path
open Text

/-- Whether a path lies strictly inside of a directory, by its parts alone. -/
def Inside (root p : Path) : Prop :=
  ∃ names, AreNames names ∧ names ≠ [] ∧ p.parts = root.parts ++ names

/-! ## The directories around a path -/

/-- The parts of the fields between slashes. -/
def partsOfFields : List (List Char) → List Part
  | [] :: field :: rest => .root :: (field :: rest).filterMap (Part.ofField? false)
  | first :: rest => (Part.ofField? true first).toList ++ rest.filterMap (Part.ofField? false)
  | [] => []

theorem parts_eq_partsOfFields (p : Path) : p.parts = partsOfFields (split '/' p.text.toList) := by
  unfold parts partsOf
  cases split '/' p.text.toList <;> rfl

theorem dropVoid_suffix (fields : List (List Char)) : dropVoid fields <:+ fields := by
  fun_induction dropVoid fields with
  | case1 => exact List.suffix_refl _
  | case2 => exact List.suffix_refl _
  | case3 => exact List.suffix_refl _
  | case4 field rest _ _ ih => exact ih.trans (List.suffix_cons field rest)

theorem around?_suffix {fields outer : List (List Char)} (h : around? fields = some outer) :
    outer <:+ fields := by
  have hd := dropVoid_suffix fields
  unfold around? at h
  split at h
  · cases h
  · split at h
    · cases h
    · cases h
      exact List.nil_suffix
  · rename_i first field rest hs
    cases h
    rw [hs] at hd
    exact (dropVoid_suffix _).trans ((List.suffix_cons first _).trans hd)

/-- Each directory around is spelled by fewer of the fields. -/
theorem exists_of_mem_outward {fields : List (List Char)} {dir : Path}
    (h : dir ∈ outward fields) :
    ∃ outer, outer <:+ fields ∧ outer.length < fields.length ∧ dir = ofFields outer := by
  fun_induction outward fields with
  | case1 => cases h
  | case2 fields outer hout ih =>
    have hlen := length_around?_lt hout
    have hsuffix := around?_suffix hout
    rcases List.mem_cons.1 h with rfl | h
    · exact ⟨outer, hsuffix, hlen, rfl⟩
    · obtain ⟨further, hfurther, hless, rfl⟩ := ih h
      exact ⟨further, hfurther.trans hsuffix, by omega, rfl⟩

/-- Fewer fields have fewer parts. A single empty field stands for the root. -/
theorem partsOfFields_prefix {front fields : List (List Char)} (h : front <+: fields)
    (hroot : front ≠ [[]]) : partsOfFields front <+: partsOfFields fields := by
  obtain ⟨rest, rfl⟩ := h
  match front with
  | [] => exact List.nil_prefix
  | [[]] => exact absurd rfl hroot
  | [] :: field :: more =>
    rw [List.cons_append, List.cons_append, partsOfFields, partsOfFields, ← List.cons_append,
      List.filterMap_append, ← List.cons_append]
    exact List.prefix_append _ _
  | (c :: cs) :: more =>
    simp only [List.cons_append, partsOfFields, List.filterMap_append, ← List.append_assoc]
    exact List.prefix_append _ _

theorem parts_ofFields {fields : List (List Char)} (hslash : ∀ f ∈ fields, '/' ∉ f)
    (hroot : fields ≠ [[]]) : (ofFields fields).parts = partsOfFields fields.reverse := by
  have hof : ofFields fields = ⟨String.ofList (Text.join ['/'] fields.reverse)⟩ := by
    unfold ofFields
    split
    · exact absurd rfl hroot
    · rfl
  rw [hof, parts_eq_partsOfFields, String.toList_ofList]
  by_cases hnil : fields = []
  · subst hnil
    rfl
  · rw [split_join (by simpa using hnil) fun f hf => hslash f (List.mem_reverse.1 hf)]

theorem parts_prefix_of_mem_outward {p dir : Path}
    (h : dir ∈ outward (split '/' p.text.toList).reverse) : dir.parts <+: p.parts := by
  obtain ⟨outer, hsuffix, hlen, rfl⟩ := exists_of_mem_outward h
  have hpre : outer.reverse <+: split '/' p.text.toList := by
    rw [← List.reverse_reverse (split '/' p.text.toList)]
    exact List.reverse_prefix.2 hsuffix
  rw [parts_eq_partsOfFields p]
  by_cases hroot : outer = [[]]
  · -- the text has a slash behind an empty field, so that the path begins at the root
    subst hroot
    obtain ⟨rest, hrest⟩ := hpre
    rw [List.length_reverse, ← hrest] at hlen
    cases rest with
    | nil => simp at hlen
    | cons field rest =>
      rw [← hrest]
      exact ⟨(field :: rest).filterMap (Part.ofField? false), rfl⟩
  · rw [parts_ofFields (fun f hf => notMem_of_mem_split
      (List.mem_reverse.1 (hsuffix.subset hf))) hroot]
    exact partsOfFields_prefix hpre fun he => hroot (by
      rw [← List.reverse_reverse outer, he]
      rfl)

theorem parts_prefix_of_parent? {p dir : Path} (h : p.parent? = some dir) :
    dir.parts <+: p.parts := by
  obtain ⟨outer, houter, rfl⟩ := Option.map_eq_some_iff.1 h
  refine parts_prefix_of_mem_outward ?_
  rw [outward]
  split
  · rename_i hnone
    rw [hnone] at houter
    cases houter
  · rename_i outer' hsome
    obtain rfl := Option.some.inj (hsome.symm.trans houter)
    exact List.mem_cons_self

/-- A path in a directory from the root is from the root. -/
theorem isAbsolute_of_parent? {p dir : Path} (hp : p.parent? = some dir)
    (h : dir.isAbsolute = true) : p.isAbsolute = true := by
  obtain ⟨rest, hdir⟩ := isAbsolute_iff.1 h
  obtain ⟨more, hmore⟩ := parts_prefix_of_parent? hp
  exact isAbsolute_iff.2 ⟨rest ++ more, by rw [← hmore, hdir]; rfl⟩

/-- What is around a place inside, and strictly in the directory, is inside again. -/
theorem Inside.of_prefix {root p dir : Path} (hp : Inside root p) (hpre : dir.parts <+: p.parts)
    (hwithin : dir.isWithin root = true) (hsame : dir.same root = false) : Inside root dir := by
  obtain ⟨names, hn, _, hparts⟩ := hp
  rw [hparts] at hpre
  obtain ⟨taken, htaken⟩ := List.isPrefixOf_iff_prefix.1 hwithin
  rw [← htaken] at hpre
  have hshorter : taken <+: names := (List.prefix_append_right_inj _).1 hpre
  refine ⟨taken, fun q hq => hn q (hshorter.subset hq), ?_, htaken.symm⟩
  rintro rfl
  rw [List.append_nil] at htaken
  rw [same, htaken, beq_self_eq_true] at hsame
  cases hsame

/-- A directory around a place inside is the directory itself or further out, or inside again. -/
theorem inside_of_mem_tail_ancestors {root p dir : Path} (hp : Inside root p)
    (h : dir ∈ p.ancestors.tail) (hwithin : dir.isWithin root = true)
    (hsame : dir.same root = false) : Inside root dir :=
  hp.of_prefix (parts_prefix_of_mem_outward h) hwithin hsame

theorem Inside.of_parts {root p q : Path} (h : Inside root p) (hparts : p.parts = q.parts) :
    Inside root q := by
  obtain ⟨names, hn, hne, hp⟩ := h
  exact ⟨names, hn, hne, hparts.symm.trans hp⟩

theorem Inside.ne_nil {root p : Path} (h : Inside root p) : p.parts ≠ [] := by
  obtain ⟨names, _, hne, hp⟩ := h
  rw [hp]
  exact List.append_ne_nil_of_right_ne_nil _ hne

theorem Inside.isWithin {root p : Path} (h : Inside root p) : p.isWithin root = true := by
  obtain ⟨names, _, _, hp⟩ := h
  exact List.isPrefixOf_iff_prefix.2 ⟨names, hp.symm⟩

theorem Inside.not_same {root p : Path} (h : Inside root p) : p.same root = false := by
  obtain ⟨names, _, hne, hp⟩ := h
  refine Bool.eq_false_iff.2 fun hsame => hne ?_
  have hparts : p.parts = root.parts := same_iff.1 hsame
  exact List.append_right_eq_self.1 (hp.symm.trans hparts)

theorem Inside.isAbsolute {root p : Path} (h : Inside root p) (hroot : root.isAbsolute = true) :
    p.isAbsolute = true := by
  obtain ⟨names, _, _, hp⟩ := h
  obtain ⟨rest, hrest⟩ := isAbsolute_iff.1 hroot
  exact isAbsolute_iff.2 ⟨rest ++ names, by rw [hp, hrest]; rfl⟩

/-! ## What leads inside -/

theorem foldl_fold_up (taken ps : List Part) :
    ∃ more, ps.foldl fold (taken ++ [.up]) = more ++ [.up] := by
  induction ps generalizing taken with
  | nil => exact ⟨taken, rfl⟩
  | cons p ps ih =>
    have hfold : ∃ more, fold (taken ++ [.up]) p = more ++ [.up] := by
      cases p with
      | here => exact ⟨taken, rfl⟩
      | root => exact ⟨.root :: taken, rfl⟩
      | name text => exact ⟨.name text :: taken, rfl⟩
      | up =>
        cases taken with
        | nil => exact ⟨[.up], rfl⟩
        | cons q taken =>
          cases q with
          | name text => exact ⟨taken, rfl⟩
          | root => exact ⟨.root :: taken, rfl⟩
          | here => exact ⟨.up :: .here :: taken, rfl⟩
          | up => exact ⟨.up :: .up :: taken, rfl⟩
    obtain ⟨more, hmore⟩ := hfold
    rw [List.foldl_cons, hmore]
    exact ih more

/-- Parts that come to names only never go further out than where they begin. -/
theorem foldl_fold_append {taken ps : List Part} (htaken : ∀ p ∈ taken, p.isName = true)
    (hroot : ∀ p ∈ ps, p ≠ .root) (h : ∀ p ∈ ps.foldl fold taken, p.isName = true)
    (base : List Part) : ps.foldl fold (taken ++ base) = ps.foldl fold taken ++ base := by
  induction ps generalizing taken with
  | nil => rfl
  | cons p ps ih =>
    have hps : ∀ q ∈ ps, q ≠ .root := fun q hq => hroot q (List.mem_cons_of_mem _ hq)
    cases p with
    | root => exact absurd rfl (hroot _ List.mem_cons_self)
    | here => exact ih htaken hps h
    | name text =>
      have hnames : ∀ q ∈ Part.name text :: taken, q.isName = true := by
        intro q hq
        rcases List.mem_cons.1 hq with rfl | hq
        · rfl
        · exact htaken q hq
      exact ih hnames hps h
    | up =>
      cases taken with
      | nil =>
        obtain ⟨more, hmore⟩ := foldl_fold_up [] ps
        have hup : Part.up ∈ (.up :: ps : List Part).foldl fold [] := by
          rw [List.foldl_cons]
          exact hmore ▸ List.mem_append_right _ List.mem_cons_self
        exact absurd (h _ hup) (by simp [Part.isName])
      | cons q taken =>
        cases q with
        | name text => exact ih (fun r hr => htaken r (List.mem_cons_of_mem _ hr)) hps h
        | _ => exact absurd (htaken _ List.mem_cons_self) (by simp [Part.isName])

theorem ne_root_of_mem_parts {p : Path} (h : p.isAbsolute = false) : ∀ q ∈ p.parts, q ≠ .root := by
  have hw := written_parts p
  have habs : ¬∃ rest, p.parts = .root :: rest := fun hr => by
    rw [isAbsolute_iff.2 hr] at h
    cases h
  intro q hq
  cases hp : p.parts with
  | nil => simp [hp] at hq
  | cons first rest =>
    rw [hp] at hq hw habs
    rcases List.mem_cons.1 hq with rfl | hq
    · rintro rfl
      exact habs ⟨rest, rfl⟩
    · exact (hw.2 q hq).2.1

/-- A path that comes to names leads inside of any directory. -/
theorem parts_normal_join_of_isContained {p : Path} (h : isContained p.normal.parts = true)
    (base : Path) : (base.join p).normal.parts = base.normal.parts ++ p.normal.parts := by
  simp only [isContained, Bool.and_eq_true, List.all_eq_true, parts_normal] at h
  have habs : p.isAbsolute = false := by
    rw [Bool.eq_false_iff]
    intro habs
    obtain ⟨rest, hrest⟩ := isAbsolute_iff.1 (isAbsolute_normal habs)
    rw [parts_normal] at hrest
    have := h.2 .root (hrest ▸ List.mem_cons_self)
    simp [Part.isName] at this
  have hnames : ∀ q ∈ p.parts.foldl fold [], q.isName = true := fun q hq =>
    h.2 q (List.mem_reverse.2 hq)
  have happend := foldl_fold_append (by simp) (ne_root_of_mem_parts habs) hnames
    (base.parts.foldl fold [])
  rw [parts_normal, normalParts_join habs, parts_normal, parts_normal]
  simp only [normalParts, List.foldl_append]
  rw [List.nil_append] at happend
  rw [happend, List.reverse_append]

theorem inside_of_isContained {root p : Path} (hroot : root.normal = root)
    (h : isContained p.normal.parts = true) : Inside root (root.join p).normal := by
  have hparts := parts_normal_join_of_isContained h root
  rw [hroot] at hparts
  simp only [isContained, Bool.and_eq_true, List.all_eq_true] at h
  refine ⟨p.normal.parts, fun q hq => ⟨h.2 q hq, proper_of_mem_parts hq⟩, ?_, hparts⟩
  simpa using h.1

/-- Names between slashes lead inside of the directory in which they are read. -/
theorem inside_child_slashed (base : Path) {names : List Part} (hn : AreNames names)
    (hne : names ≠ []) : Inside base (base.child (slashed names)) :=
  ⟨names, hn, hne, parts_child_names base hn⟩

end AgentDocs.Path
