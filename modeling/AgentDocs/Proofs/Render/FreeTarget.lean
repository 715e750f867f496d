import AgentDocs.Proofs.Loop
import AgentDocs.Proofs.Path.Normal
import AgentDocs.Render.Imports
import Mathlib.Data.List.Nodup

/-! # Targets for imported files

The candidates for a file are pairwise different places: the number that tells them apart stands
between the stem and the extension. So one more of them than targets are taken cannot all be
taken, and the search for a free one ends within this bound, whether it is given one or not. -/
namespace AgentDocs.Imports
open Text

/-! ## Names of candidates -/

/-- What stands in front of the number. -/
def stemOf (source : Path) : String := source.stem?.getD ""

/-- What stands behind the number: the extension with its point, if there is one. -/
def tailOf (source : Path) : String := (source.extension?.map ("." ++ ·)).getD ""

/-- A file name is its stem and its tail. -/
theorem candidateName_zero (source : Path) :
    candidateName source 0 = stemOf source ++ tailOf source := by
  unfold candidateName stemOf tailOf Path.stem? Path.extension?
  cases source.fileName? with
  | none => rfl
  | some name =>
    simp only [if_true, Option.getD_some, Option.map_some, Option.bind_some, Path.splitName]
    split
    · simp
    · simp
    · rename_i stem extension _ hsplit
      apply String.toList_injective
      simpa using eq_of_splitLast hsplit

theorem candidateName_succ (source : Path) (n : Nat) :
    candidateName source (n + 1)
      = stemOf source ++ "-" ++ toString (n + 1) ++ tailOf source := by
  unfold candidateName stemOf tailOf
  rw [if_neg (Nat.succ_ne_zero n)]
  cases source.extension? with
  | none => simp
  | some extension => simp [String.append_assoc]

theorem toString_injective {i j : Nat} (h : toString i = toString j) : i = j := by
  have hdigits := congrArg (fun s : String => Nat.ofDigitChars 10 s.toList 0) h
  simpa [Nat.toString_eq_ofList_toDigits] using hdigits

theorem candidateName_injective {source : Path} {i j : Nat}
    (h : candidateName source i = candidateName source j) : i = j := by
  have hnumbered : ∀ n, candidateName source 0 ≠ candidateName source (n + 1) := by
    intro n he
    have hlength := congrArg String.length he
    rw [candidateName_zero, candidateName_succ] at hlength
    have hdash : "-".length = 1 := rfl
    simp only [String.length_append, hdash] at hlength
    omega
  cases i with
  | zero =>
    cases j with
    | zero => rfl
    | succ j => exact absurd h (hnumbered j)
  | succ i =>
    cases j with
    | zero => exact absurd h.symm (hnumbered i)
    | succ j =>
      rw [candidateName_succ, candidateName_succ] at h
      have hlist := congrArg String.toList h
      simp only [String.toList_append, List.append_assoc, List.append_cancel_left_eq,
        List.append_cancel_right_eq] at hlist
      exact toString_injective (String.toList_injective hlist)

/-! ## Places of candidates -/

/-- A file has a proper name, or none. -/
theorem candidateName_zero_cases (source : Path) :
    candidateName source 0 = "" ∨ (Part.name (candidateName source 0)).Proper := by
  rw [candidateName, if_pos rfl]
  cases hname : source.fileName? with
  | none => exact .inl rfl
  | some name => exact .inr (Path.proper_of_fileName? hname)

theorem proper_candidateName_succ (source : Path) (n : Nat) :
    (Part.name (candidateName source (n + 1))).Proper := by
  have hslash : '/' ∉ (candidateName source 0).toList := by
    obtain hempty | hproper := candidateName_zero_cases source
    · rw [hempty]
      simp
    · exact hproper.2.2.2
  have hdigits : '/' ∉ (toString (n + 1)).toList := by
    intro hmem
    rw [Nat.toString_eq_ofList_toDigits, String.toList_ofList] at hmem
    exact absurd (Nat.isDigit_of_mem_toDigits (by omega) (by omega) hmem) (by decide)
  have hlist : (candidateName source (n + 1)).toList = (stemOf source).toList
      ++ '-' :: ((toString (n + 1)).toList ++ (tailOf source).toList) := by
    rw [candidateName_succ]
    simp
  have hdash : '-' ∈ (candidateName source (n + 1)).toList := by
    rw [hlist]
    exact List.mem_append_right _ List.mem_cons_self
  rw [candidateName_zero, String.toList_append, List.mem_append, not_or] at hslash
  refine ⟨fun he => ?_, fun he => ?_, fun he => ?_, fun hmem => ?_⟩
  · rw [he] at hdash
    cases hdash
  · rw [he] at hdash
    simp at hdash
  · rw [he] at hdash
    simp at hdash
  · rw [hlist] at hmem
    rcases List.mem_append.1 hmem with hmem | hmem
    · exact hslash.1 hmem
    · rcases List.mem_cons.1 hmem with hmem | hmem
      · cases hmem
      · exact (List.mem_append.1 hmem).elim hdigits hslash.2

theorem parts_child_empty (dir : Path) : (dir.child "").parts = dir.parts :=
  (Path.parts_child_names dir Path.areNames_nil).trans (List.append_nil _)

/-- The part that a candidate adds to the directory. Only a file without a name adds none. -/
theorem parts_candidate (dir source : Path) (n : Nat) :
    (candidate dir source n).parts = dir.parts ++
      if candidateName source n = "" then [] else [.name (candidateName source n)] := by
  split
  · rename_i hempty
    rw [candidate, hempty, List.append_nil, parts_child_empty]
  · rename_i hne
    have hproper : (Part.name (candidateName source n)).Proper := by
      cases n with
      | zero => exact (candidateName_zero_cases source).resolve_left hne
      | succ n => exact proper_candidateName_succ source n
    exact Path.parts_child_name dir hproper

/-- The first candidate for a file that has a name is this name in the directory. -/
theorem parts_candidate_zero (dir source : Path) :
    (candidate dir source 0).parts = dir.parts ++ (source.fileName?.map Part.name).toList := by
  have hzero : candidateName source 0 = source.fileName?.getD "" := if_pos rfl
  rw [candidate, hzero]
  cases hname : source.fileName? with
  | none => exact (parts_child_empty dir).trans (List.append_nil _).symm
  | some name => exact Path.parts_child_name dir (Path.proper_of_fileName? hname)

theorem parts_candidate_succ (dir source : Path) (n : Nat) :
    (candidate dir source (n + 1)).parts = dir.parts
      ++ [.name (stemOf source ++ "-" ++ toString (n + 1) ++ tailOf source)] := by
  rw [candidate, Path.parts_child_name dir (proper_candidateName_succ source n),
    candidateName_succ]

/-- Different candidates are different places. -/
theorem parts_candidate_injective {dir source : Path} {i j : Nat}
    (h : (candidate dir source i).parts = (candidate dir source j).parts) : i = j := by
  rw [parts_candidate, parts_candidate, List.append_cancel_left_eq] at h
  refine candidateName_injective (?_ : candidateName source i = candidateName source j)
  split at h <;> split at h
  · rename_i hi hj
    rw [hi, hj]
  · cases h
  · cases h
  · exact Part.name.inj (List.head_eq_of_cons_eq h)

/-! ## The search -/

/-- A free target is the first candidate that is not taken, and there is one. -/
theorem freeTarget_spec (taken : List Path) (dir source : Path) :
    ∃ n ≤ taken.length, freeTarget taken dir source = candidate dir source n ∧
      (∀ t ∈ taken, (candidate dir source n).parts ≠ t.parts) ∧
      ∀ i < n, ∃ t ∈ taken, (candidate dir source i).parts = t.parts := by
  unfold freeTarget
  cases hfind : (List.range (taken.length + 1)).find? fun n =>
      !taken.any ((candidate dir source n).same ·) with
  | some n =>
    obtain ⟨hfree, hmem, hbefore⟩ := List.find?_range_eq_some.1 hfind
    refine ⟨n, Nat.le_of_lt_succ (List.mem_range.1 hmem), by simp [hfind], ?_, ?_⟩
    · intro t ht he
      have htaken := Path.any_same_iff.2 ⟨t, ht, he⟩
      simp [htaken] at hfree
    · exact fun i hi => Path.any_same_iff.1 (by simpa using hbefore i hi)
  | none =>
    -- all of them taken would be more places than there are targets
    have hnodup : ((List.range (taken.length + 1)).map fun n =>
        (candidate dir source n).parts).Nodup :=
      List.Nodup.map (fun i j => parts_candidate_injective) List.nodup_range
    have hsub : ((List.range (taken.length + 1)).map fun n => (candidate dir source n).parts)
        ⊆ taken.map Path.parts := by
      intro parts hparts
      obtain ⟨n, hn, rfl⟩ := List.mem_map.1 hparts
      obtain ⟨t, ht, he⟩ := Path.any_same_iff.1 (by simpa using List.find?_eq_none.1 hfind n hn)
      exact List.mem_map.2 ⟨t, ht, he.symm⟩
    have hlength := hnodup.length_le_of_subset hsub
    simp only [List.length_map, List.length_range] at hlength
    omega

/-! ## The search without a bound -/

/-- A candidate with its number. -/
def numbered (dir source : Path) (n : Nat) : Nat × Path := (n, candidate dir source n)

/-- Going from one candidate to the next for as long as they are taken leads to a path. -/
def LeadsTo (taken : List Path) (dir source p : Path) : Prop :=
  ∃ n, LoopEnds (fun s => taken.any (s.2.same ·)) (fun s => numbered dir source (s.1 + 1))
    (numbered dir source 0) (n, p)

theorem leadsTo_iff {taken : List Path} {dir source p : Path} :
    LeadsTo taken dir source p ↔ p = freeTarget taken dir source := by
  obtain ⟨n, -, hfreeTarget, hfree, hbefore⟩ := freeTarget_spec taken dir source
  have hends : taken.any ((candidate dir source n).same ·) = false := by
    refine Bool.eq_false_iff.2 fun htaken => ?_
    obtain ⟨t, ht, he⟩ := Path.any_same_iff.1 htaken
    exact hfree t ht he
  have hloop (s : Nat × Path) : LoopEnds (fun s => taken.any (s.2.same ·))
      (fun s => numbered dir source (s.1 + 1)) (numbered dir source 0) s ↔ s = numbered dir source n :=
    LoopEnds.iff_eq (numbered dir source) (fun _ => rfl)
      (fun i hi => Path.any_same_iff.2 (hbefore i hi)) hends
  rw [hfreeTarget]
  constructor
  · rintro ⟨i, h⟩
    exact congrArg Prod.snd ((hloop (i, p)).1 h)
  · rintro rfl
    exact ⟨n, (hloop _).2 rfl⟩

/-- The search ends with the first candidate that is no target of a file, which comes after no more
candidates than there are targets. The candidates are different places in the directory: there is the
own name of the file, then its stem with the numbers from one on, and its extension if it has one. -/
theorem freeTarget_first_free (targets : PathMap Path) (dir source : Path) :
    let taken := targets.map (·.2)
    let place (n : Nat) := (candidate dir source n).parts
    (∀ p, LeadsTo taken dir source p ↔ p = freeTarget taken dir source) ∧
      (∃ n ≤ targets.length, freeTarget taken dir source = candidate dir source n ∧
        (∀ t ∈ taken, place n ≠ t.parts) ∧ ∀ i < n, ∃ t ∈ taken, place i = t.parts) ∧
      Function.Injective place ∧
      source.fileName?.getD "" = stemOf source ++ tailOf source ∧
      place 0 = dir.parts ++ (source.fileName?.map Part.name).toList ∧
      ∀ n, place (n + 1) = dir.parts
        ++ [.name (stemOf source ++ "-" ++ toString (n + 1) ++ tailOf source)] := by
  intro taken place
  obtain ⟨n, hn, hfirst⟩ := freeTarget_spec taken dir source
  rw [List.length_map] at hn
  exact ⟨fun p => leadsTo_iff, ⟨n, hn, hfirst⟩, fun i j => parts_candidate_injective,
    candidateName_zero source, parts_candidate_zero dir source, parts_candidate_succ dir source⟩

/-- Targets of two files of one name, which has two points and a stem that ends in a number. -/
def numberedTargets : PathMap Path :=
  [(⟨"/work/a/x-1.tar.md"⟩, ⟨"/work/ai-docs/imports/x-1.tar.md"⟩),
    (⟨"/work/b/x-1.tar.md"⟩, ⟨"/work/ai-docs/./imports//x-1.tar-1.md"⟩)]

theorem freeTarget_behind_numbered :
    LeadsTo (numberedTargets.map (·.2)) ⟨"/work/ai-docs/imports"⟩ ⟨"/work/c/x-1.tar.md"⟩
      ⟨"/work/ai-docs/imports/x-1.tar-2.md"⟩ := by
  obtain ⟨hleads, -⟩ := freeTarget_first_free numberedTargets ⟨"/work/ai-docs/imports"⟩
    ⟨"/work/c/x-1.tar.md"⟩
  exact (hleads _).2 (by decide +kernel)

end AgentDocs.Imports
