import AgentDocs.Proofs.Path.Map

/-! # The order of paths

Paths are in the order of their parts: part by part, and a directory before what is in it. Path maps
are kept in this order. -/
namespace AgentDocs

namespace Part

theorem before_name_iff {a b : String} : before (.name a) (.name b) = true ↔ a < b :=
  decide_eq_true_iff

theorem before_of_before {a b c : Part} (hab : before a b = true) (hbc : before b c = true) :
    before a c = true := by
  cases a <;> cases b <;> cases c <;> first
    | rfl
    | exact absurd hab Bool.false_ne_true
    | exact absurd hbc Bool.false_ne_true
    | exact before_name_iff.2 (String.lt_trans (before_name_iff.1 hab) (before_name_iff.1 hbc))

theorem before_or_before {a b : Part} (h : a ≠ b) : before a b = true ∨ before b a = true := by
  cases a <;> cases b <;> first
    | exact absurd rfl h
    | exact .inl rfl
    | exact .inr rfl
    | skip
  rename_i a b
  have hne : a ≠ b := fun he => h (congrArg Part.name he)
  rw [before_name_iff, before_name_iff]
  rcases String.le_total a b with hab | hba
  · exact .inl (Std.lt_of_le_of_ne hab hne)
  · exact .inr (Std.lt_of_le_of_ne hba hne.symm)

theorem before_self (a : Part) : before a a = false := by
  cases a with
  | name a => exact decide_eq_false (String.lt_irrefl a)
  | root | here | up => rfl

theorem listBefore_cons {a b : Part} {as bs : List Part} :
    listBefore (a :: as) (b :: bs) = true ↔
      a = b ∧ listBefore as bs = true ∨ before a b = true := by
  rw [listBefore]
  split
  · rename_i h
    simp [h, before_self]
  · rename_i h
    simp [h]

theorem listBefore_trans {as bs cs : List Part} (hab : listBefore as bs = true)
    (hbc : listBefore bs cs = true) : listBefore as cs = true := by
  induction as generalizing bs cs with
  | nil =>
    cases cs with
    | nil => cases bs <;> cases hbc
    | cons => rfl
  | cons a as ih =>
    cases bs with
    | nil => cases hab
    | cons b bs =>
      cases cs with
      | nil => cases hbc
      | cons c cs =>
        rw [listBefore_cons] at hab hbc ⊢
        rcases hab with ⟨rfl, hab⟩ | hab <;> rcases hbc with ⟨rfl, hbc⟩ | hbc
        · exact .inl ⟨rfl, ih hab hbc⟩
        · exact .inr hbc
        · exact .inr hab
        · exact .inr (before_of_before hab hbc)

theorem listBefore_or_listBefore {as bs : List Part} (h : as ≠ bs) :
    listBefore as bs = true ∨ listBefore bs as = true := by
  induction as generalizing bs with
  | nil =>
    cases bs with
    | nil => exact absurd rfl h
    | cons => exact .inl rfl
  | cons a as ih =>
    cases bs with
    | nil => exact .inr rfl
    | cons b bs =>
      rw [listBefore_cons, listBefore_cons]
      by_cases hab : a = b
      · subst hab
        refine (ih fun h' => h (h' ▸ rfl)).imp (fun h' => .inl ⟨rfl, h'⟩) fun h' => .inl ⟨rfl, h'⟩
      · exact (before_or_before hab).imp .inr .inr

/-- What stands in front of both lists does not count. -/
theorem listBefore_append (ps as bs : List Part) :
    listBefore (ps ++ as) (ps ++ bs) = listBefore as bs := by
  induction ps with
  | nil => rfl
  | cons p ps ih => rw [List.cons_append, List.cons_append, listBefore, if_pos rfl, ih]

/-- What lies right inside one directory is in the order of the names. -/
theorem listBefore_append_name_iff (ps : List Part) {a b : String} :
    listBefore (ps ++ [.name a]) (ps ++ [.name b]) = true ↔ a < b := by
  rw [listBefore_append, listBefore_cons, before_name_iff]
  exact ⟨fun h => h.resolve_left fun ⟨_, hself⟩ => Bool.false_ne_true hself, .inr⟩

end Part

namespace PathMap
variable {α : Type}

/-- Whether the entries of a map are in the order of their keys, no two for one place. -/
def Sorted (m : PathMap α) : Prop := m.Pairwise fun a b => a.1.before b.1 = true

theorem sorted_insert {m : PathMap α} (h : Sorted m) (p : Path) (v : α) :
    Sorted (insert p v m) := by
  induction m with
  | nil => exact List.pairwise_singleton _ _
  | cons e m ih =>
    obtain ⟨q, w⟩ := e
    obtain ⟨hfirst, hrest⟩ := List.pairwise_cons.1 h
    rw [insert]
    split
    · exact List.pairwise_cons.2 ⟨hfirst, hrest⟩
    · rename_i hne
      split
      · rename_i hbefore
        refine List.pairwise_cons.2 ⟨fun e he => ?_, h⟩
        rcases List.mem_cons.1 he with rfl | he
        · exact hbefore
        · exact Part.listBefore_trans hbefore (hfirst e he)
      · rename_i hnot
        have hqp : q.before p = true :=
          (Part.listBefore_or_listBefore fun hparts => hne (Path.same_iff.2 hparts)).resolve_right
            hnot
        refine List.pairwise_cons.2 ⟨fun e he => ?_, ih hrest⟩
        obtain ⟨k, u⟩ := e
        rcases mem_or_of_mem_insert he with he | ⟨hk, -⟩
        · exact hfirst _ he
        · rwa [Path.before, hk]

theorem sorted_ofList (entries : List (Path × α)) : Sorted (ofList entries) := by
  have hfold : ∀ m : PathMap α, Sorted m →
      Sorted (entries.foldl (fun m e => insert e.1 e.2 m) m) := by
    induction entries with
    | nil => exact fun m hm => hm
    | cons e entries ih => exact fun m hm => ih _ (sorted_insert hm _ _)
  exact hfold [] List.Pairwise.nil

theorem sorted_erase {m : PathMap α} (h : Sorted m) (p : Path) : Sorted (erase p m) :=
  h.filter _

end PathMap
end AgentDocs
