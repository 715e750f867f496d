import AgentDocs.Proofs.Path.Absolute

/-! # The way from a directory to a path

Between two paths from the root there is a way: out of the directories that they do not share, and
then in by names. Read from within the directory it leads to the path again, also after it was
written with slashes. -/
namespace AgentDocs.Path
open Text

theorem dropCommon_spec (as bs : List Part) :
    ∃ common, as = common ++ (dropCommon as bs).1 ∧ bs = common ++ (dropCommon as bs).2 := by
  fun_induction dropCommon as bs with
  | case1 as a bs ih =>
    obtain ⟨common, ha, hb⟩ := ih
    exact ⟨a :: common, congrArg (a :: ·) ha, congrArg (a :: ·) hb⟩
  | case2 => exact ⟨[], rfl, rfl⟩
  | case3 => exact ⟨[], rfl, rfl⟩

/-- Going out takes one name after the other away. -/
theorem foldl_fold_replicate_up {names : List Part} (h : ∀ p ∈ names, p.isName = true)
    (base : List Part) :
    (List.replicate names.length Part.up).foldl fold (names ++ base) = base := by
  induction names with
  | nil => rfl
  | cons p names ih =>
    have hp := h p List.mem_cons_self
    cases p with
    | name text => exact ih fun q hq => h q (List.mem_cons_of_mem _ hq)
    | _ => simp [Part.isName] at hp

/-- Between two paths from the root there is a way. -/
theorem exists_relativeTo? {dir target : Path} (hdir : dir.isAbsolute = true)
    (htarget : target.isAbsolute = true) :
    ∃ common outer names,
      dir.relativeTo? target = some (ofParts (List.replicate outer.length .up ++ names)) ∧
      dir.normal.parts = common ++ outer ∧ target.normal.parts = common ++ names ∧
      AreNames outer ∧ AreNames names := by
  have hd := isAbsolute_normal hdir
  have ht := isAbsolute_normal htarget
  obtain ⟨ds, hds, hdparts⟩ := exists_names_of_isAbsolute (normal_normal dir) hd
  obtain ⟨ts, hts, htparts⟩ := exists_names_of_isAbsolute (normal_normal target) ht
  obtain ⟨common, hcd, hct⟩ := dropCommon_spec ds ts
  refine ⟨.root :: common, (dropCommon ds ts).1, (dropCommon ds ts).2, ?_, ?_, ?_, ?_, ?_⟩
  · simp only [relativeTo?, hd, ht, if_true, hdparts, htparts, dropCommon, List.map_const']
  · rw [hdparts, List.cons_append, ← hcd]
  · rw [htparts, List.cons_append, ← hct]
  · exact fun p hp => hds p (hcd ▸ List.mem_append_right _ hp)
  · exact fun p hp => hts p (hct ▸ List.mem_append_right _ hp)

theorem isWay_of_outer (n : Nat) {names : List Part} (h : AreNames names) :
    IsWay (List.replicate n .up ++ names) :=
  ⟨_, names, rfl, fun _ hp => List.eq_of_mem_replicate hp, h⟩

/-- The way to a path, written with slashes and read from within the directory, leads to it. -/
theorem normal_join_relativeTo? {dir target : Path} (hdir : dir.isAbsolute = true)
    (htarget : target.isAbsolute = true) :
    (dir.join ⟨((dir.relativeTo? target).getD target).toSlashed⟩).normal = target.normal := by
  obtain ⟨common, outer, names, hway, hd, ht, houter, hn⟩ := exists_relativeTo? hdir htarget
  have hisWay := isWay_of_outer outer.length hn
  -- the parts of a normal path are taken as they are
  have hfolded : (common ++ outer).foldl fold [] = (common ++ outer).reverse := by
    have hnormal : normalParts (common ++ outer) = common ++ outer := by
      rw [← hd, ← parts_normal, normal_normal]
    rw [← List.reverse_reverse ((common ++ outer).foldl fold []), ← normalParts, hnormal]
  have hlength : outer.length = outer.reverse.length := List.length_reverse.symm
  rw [hway, Option.getD_some, toSlashed, parts_ofParts hisWay.written]
  refine eq_of_normal (normal_normal _) (normal_normal _) ?_
  rw [parts_normal, normalParts_join hisWay.isAbsolute_slashed, hisWay.parts_slashed, ht,
    ← normalParts_normalParts_append (written_parts dir), ← parts_normal, hd, ← List.append_assoc,
    normalParts_append_names fun p hp => (hn p hp).1, normalParts, List.foldl_append, hfolded,
    List.reverse_append, hlength,
    foldl_fold_replicate_up fun p hp => (houter p (List.mem_reverse.1 hp)).1, List.reverse_reverse]

end AgentDocs.Path
