import AgentDocs.Proofs.Path.Normal

/-! # Paths from the root

What is read from within a directory that is given from the root, and what is around a path that
is, are given from the root too. -/
namespace AgentDocs.Path
open Text

theorem exists_of_isAbsolute {p : Path} (h : p.isAbsolute = true) :
    ∃ cs, p.text.toList = '/' :: cs := by
  cases ht : p.text.toList with
  | nil => simp [isAbsolute, ht] at h
  | cons c cs =>
    have hc : c = '/' := by simpa [isAbsolute, ht] using h
    exact ⟨cs, by rw [hc]⟩

theorem isAbsolute_join {base p : Path} (h : base.isAbsolute = true) :
    (base.join p).isAbsolute = true := by
  unfold join
  split
  · assumption
  · obtain ⟨cs, hb⟩ := exists_of_isAbsolute h
    split <;> simp [isAbsolute, hb]

/-! ## What is around a path -/

theorem getLast?_dropVoid (fields : List (List Char)) :
    (dropVoid fields).getLast? = fields.getLast? := by
  fun_induction dropVoid fields with
  | case1 => rfl
  | case2 => rfl
  | case3 => rfl
  | case4 field rest hrest hvoid ih =>
    obtain ⟨next, more, rfl⟩ := List.exists_cons_of_ne_nil hrest
    rw [ih, List.getLast?_cons_cons]

/-- The field in front of the first slash stays. -/
theorem getLast?_around? {fields outer : List (List Char)} (hfields : fields.getLast? = some [])
    (h : around? fields = some outer) : outer.getLast? = some [] := by
  rw [← getLast?_dropVoid] at hfields
  unfold around? at h
  split at h
  · cases h
  · rename_i last hd
    rw [hd] at hfields
    cases hfields
    cases h
  · rename_i first field rest hd
    cases h
    rw [hd, List.getLast?_cons_cons] at hfields
    rw [getLast?_dropVoid, hfields]

theorem isAbsolute_ofFields {fields : List (List Char)} (h : fields.getLast? = some []) :
    (ofFields fields).isAbsolute = true := by
  obtain ⟨init, rfl⟩ := List.getLast?_eq_some_iff.1 h
  unfold ofFields
  split
  · rfl
  · rename_i hne
    cases hrev : init.reverse with
    | nil =>
      rw [List.reverse_eq_nil_iff.1 hrev] at hne
      exact absurd rfl hne
    | cons field more => simp [isAbsolute, hrev, Text.join]

theorem isAbsolute_parent? {p dir : Path} (h : p.isAbsolute = true) (hp : p.parent? = some dir) :
    dir.isAbsolute = true := by
  obtain ⟨outer, houter, rfl⟩ := Option.map_eq_some_iff.1 hp
  obtain ⟨cs, hcs⟩ := exists_of_isAbsolute h
  refine isAbsolute_ofFields (getLast?_around? ?_ houter)
  simp [hcs, split]

/-- Only void fields are dropped. -/
theorem filterMap_dropVoid (fields : List (List Char)) :
    (dropVoid fields).filterMap (Part.ofField? false) = fields.filterMap (Part.ofField? false) := by
  fun_induction dropVoid fields with
  | case1 => rfl
  | case2 => rfl
  | case3 => rfl
  | case4 field rest _ hvoid ih =>
    rw [ih, List.filterMap_cons_none (Option.not_isSome_iff_eq_none.1 hvoid)]

theorem filterMap_of_around?_eq_none {fields : List (List Char)} (h : around? fields = none) :
    fields.filterMap (Part.ofField? false) = [] := by
  rw [← filterMap_dropVoid]
  unfold around? at h
  split at h
  · rename_i hd
    rw [hd]
    rfl
  · rename_i last hd
    split at h
    · rename_i hempty
      rw [hd, List.isEmpty_iff.1 hempty]
      rfl
    · cases h
  · cases h

theorem outward_none {fields : List (List Char)} (h : around? fields = none) :
    outward fields = [] := by
  rw [outward]
  split
  · rfl
  · rename_i heq
    rw [h] at heq
    cases heq

theorem outward_some {fields outer : List (List Char)} (h : around? fields = some outer) :
    outward fields = ofFields outer :: outward outer := by
  rw [outward]
  split
  · rename_i heq
    rw [h] at heq
    cases heq
  · rename_i heq
    rw [h] at heq
    rw [Option.some.inj heq]

theorem mem_inner_of_isName {p : Path} {name : Part} (hmem : name ∈ p.parts)
    (hname : name.isName = true) : name ∈ inner p.text.toList := by
  by_cases habs : p.isAbsolute = true
  · obtain ⟨cs, hcs⟩ := exists_of_isAbsolute habs
    rw [parts, hcs, partsOf_slash] at hmem
    rcases List.mem_cons.1 hmem with rfl | hmem
    · cases hname
    · rw [hcs, inner, split, if_pos rfl]
      exact hmem
  · have hhead : p.text.toList.head? ≠ some '/' := by simpa [isAbsolute] using habs
    rw [inner_eq hhead]
    refine List.mem_filter.2 ⟨hmem, ?_⟩
    cases name <;> simp_all [Part.isName]

/-- What has a name in it has a directory around it. -/
theorem exists_parent? {p : Path} {name : Part} (hmem : name ∈ p.parts)
    (hname : name.isName = true) : ∃ dir, p.parent? = some dir := by
  cases hp : around? (split '/' p.text.toList).reverse with
  | some outer => exact ⟨ofFields outer, by rw [parent?, hp]; rfl⟩
  | none =>
    have hnil := filterMap_of_around?_eq_none hp
    rw [List.filterMap_reverse, List.reverse_eq_nil_iff] at hnil
    have hmem := mem_inner_of_isName hmem hname
    rw [inner, hnil] at hmem
    cases hmem

end AgentDocs.Path
