import AgentDocs.Path.Map
import AgentDocs.Proofs.Path.Parts

/-! # Path maps, key by key

A map is seen through `get?`: an insertion changes one place and a removal clears one. -/
namespace AgentDocs.PathMap
variable {α : Type}

theorem get?_congr {p q : Path} (h : p.parts = q.parts) (m : PathMap α) : get? p m = get? q m := by
  induction m with
  | nil => rfl
  | cons e m ih => simp [get?, Path.same, h, ih]

theorem get?_insert_of_same {p q : Path} (h : p.parts = q.parts) (v : α) (m : PathMap α) :
    get? q (insert p v m) = some v := by
  induction m with
  | nil => simp [insert, get?, Path.same, h]
  | cons e m ih =>
    obtain ⟨k, w⟩ := e
    simp only [insert]
    split
    · rename_i hk
      simp [get?, Path.same, ← h, Path.same_iff.1 hk]
    · rename_i hk
      split
      · simp [get?, Path.same, h]
      · simpa [get?, Path.same, ← h, show ¬k.parts = p.parts from fun e => hk (Path.same_iff.2 e)]
          using ih

theorem get?_insert_of_ne {p q : Path} (h : p.parts ≠ q.parts) (v : α) (m : PathMap α) :
    get? q (insert p v m) = get? q m := by
  induction m with
  | nil => simp [insert, get?, Path.same, h]
  | cons e m ih =>
    obtain ⟨k, w⟩ := e
    simp only [insert]
    split
    · rename_i hk
      simp [get?, Path.same, Path.same_iff.1 hk, h]
    · split
      · simp [get?, Path.same, h]
      · simp [get?, ih]

theorem get?_insert (p q : Path) (v : α) (m : PathMap α) :
    get? q (insert p v m) = if p.parts = q.parts then some v else get? q m := by
  split
  · exact get?_insert_of_same ‹_› v m
  · exact get?_insert_of_ne ‹_› v m

theorem get?_erase (p q : Path) (m : PathMap α) :
    get? q (erase p m) = if p.parts = q.parts then none else get? q m := by
  induction m with
  | nil => simp [erase, get?]
  | cons e m ih =>
    obtain ⟨k, w⟩ := e
    simp only [erase, Path.same] at ih
    by_cases hk : k.parts = p.parts <;> by_cases hq : p.parts = q.parts <;>
      simp_all [erase, get?, Path.same]

theorem has_iff {p : Path} {m : PathMap α} : has p m = true ↔ ∃ v, get? p m = some v :=
  Option.isSome_iff_exists

theorem has_congr {p q : Path} (h : p.parts = q.parts) (m : PathMap α) : has p m = has q m := by
  rw [has, get?_congr h, has]

/-- An insertion forgets no key. -/
theorem has_insert {p q : Path} {v : α} {m : PathMap α} (h : has p m = true) :
    has p (insert q v m) = true := by
  rw [has, get?_insert]
  split
  · rfl
  · exact h

theorem has_insert_self (p : Path) (v : α) (m : PathMap α) : has p (insert p v m) = true := by
  rw [has, get?_insert_of_same rfl]
  rfl

theorem has_insert_iff {p q : Path} {v : α} {m : PathMap α} :
    has q (insert p v m) = true ↔ p.parts = q.parts ∨ has q m = true := by
  rw [has, get?_insert]
  by_cases h : p.parts = q.parts
  · simp [h]
  · simp [h, has]

/-- The keys after some insertions. -/
theorem has_foldl_insert_iff {p : Path} {v : α} {ps : List Path} {m : PathMap α} :
    has p (ps.foldl (fun m q => insert q v m) m) = true ↔
      has p m = true ∨ ∃ q ∈ ps, q.parts = p.parts := by
  induction ps generalizing m with
  | nil => simp
  | cons q ps ih =>
    rw [List.foldl_cons, ih, has_insert_iff, or_comm (a := q.parts = p.parts), or_assoc]
    simp

theorem has_foldl_insert {p : Path} {v : α} {ps : List Path} {m : PathMap α}
    (h : has p m = true) : has p (ps.foldl (fun m q => insert q v m) m) = true :=
  has_foldl_insert_iff.2 (.inl h)

/-- What is found stands in the map under a spelling of the key. -/
theorem exists_mem_of_get? {p : Path} {m : PathMap α} {v : α} (h : get? p m = some v) :
    ∃ q, q.parts = p.parts ∧ (q, v) ∈ m := by
  induction m with
  | nil => simp [get?] at h
  | cons e m ih =>
    obtain ⟨k, w⟩ := e
    simp only [get?] at h
    split at h
    · rename_i hk
      cases h
      exact ⟨k, Path.same_iff.1 hk, List.mem_cons_self⟩
    · obtain ⟨q, hq, hm⟩ := ih h
      exact ⟨q, hq, List.mem_cons_of_mem _ hm⟩

/-- The key of an entry is found. -/
theorem has_of_mem {q : Path} {v : α} {m : PathMap α} (h : (q, v) ∈ m) : has q m = true := by
  induction m with
  | nil => cases h
  | cons e m ih =>
    rw [has, get?]
    split
    · rfl
    · rename_i hne
      rcases List.mem_cons.1 h with rfl | h
      · exact absurd (Path.same_iff.2 rfl) hne
      · exact ih h

theorem has_iff_exists_mem {p : Path} {m : PathMap α} :
    has p m = true ↔ ∃ q ∈ keys m, q.parts = p.parts := by
  constructor
  · intro h
    obtain ⟨v, hv⟩ := has_iff.1 h
    obtain ⟨q, hq, hmem⟩ := exists_mem_of_get? hv
    exact ⟨q, List.mem_map.2 ⟨_, hmem, rfl⟩, hq⟩
  · rintro ⟨q, hq, hparts⟩
    obtain ⟨e, he, rfl⟩ := List.mem_map.1 hq
    rw [← has_congr hparts]
    exact has_of_mem he

/-- What is in a map after an insertion was there, or has the new value at its key. -/
theorem mem_or_of_mem_insert {p q : Path} {v w : α} {m : PathMap α} (h : (q, w) ∈ insert p v m) :
    (q, w) ∈ m ∨ q.parts = p.parts ∧ w = v := by
  induction m with
  | nil =>
    obtain ⟨rfl, rfl⟩ := Prod.mk.inj (List.mem_singleton.1 h)
    exact .inr ⟨rfl, rfl⟩
  | cons e m ih =>
    obtain ⟨k, u⟩ := e
    simp only [insert] at h
    split at h
    · rename_i hk
      rcases List.mem_cons.1 h with h | h
      · obtain ⟨rfl, rfl⟩ := Prod.mk.inj h
        exact .inr ⟨Path.same_iff.1 hk, rfl⟩
      · exact .inl (List.mem_cons_of_mem _ h)
    · split at h
      · rcases List.mem_cons.1 h with h | h
        · obtain ⟨rfl, rfl⟩ := Prod.mk.inj h
          exact .inr ⟨rfl, rfl⟩
        · exact .inl h
      · rcases List.mem_cons.1 h with h | h
        · exact .inl (h ▸ List.mem_cons_self)
        · exact (ih h).imp_left (List.mem_cons_of_mem _)

/-- What is in a map that was made of a list is in the list, under a spelling of its key. -/
theorem exists_of_mem_ofList {q : Path} {w : α} {entries : List (Path × α)}
    (h : (q, w) ∈ ofList entries) : ∃ p, p.parts = q.parts ∧ (p, w) ∈ entries := by
  have hfold : ∀ (entries : List (Path × α)) (m : PathMap α),
      (q, w) ∈ entries.foldl (fun m e => insert e.1 e.2 m) m →
      (q, w) ∈ m ∨ ∃ p, p.parts = q.parts ∧ (p, w) ∈ entries := by
    intro entries
    induction entries with
    | nil => exact fun m h => .inl h
    | cons e entries ih =>
      intro m h
      rcases ih _ h with h | ⟨p, hp, hmem⟩
      · rcases mem_or_of_mem_insert h with h | ⟨hq, rfl⟩
        · exact .inl h
        · exact .inr ⟨e.1, hq.symm, List.mem_cons_self⟩
      · exact .inr ⟨p, hp, List.mem_cons_of_mem _ hmem⟩
  exact (hfold entries [] h).resolve_left List.not_mem_nil

theorem mem_keys_of_mem_insert {p q : Path} {v : α} {m : PathMap α} (h : q ∈ keys (insert p v m)) :
    q = p ∨ q ∈ keys m := by
  induction m with
  | nil => exact .inl (List.mem_singleton.1 h)
  | cons e m ih =>
    simp only [insert] at h
    split at h
    · exact .inr h
    · split at h
      · exact List.mem_cons.1 h
      · rcases List.mem_cons.1 h with h | h
        · exact .inr (h ▸ List.mem_cons_self)
        · exact (ih h).imp_right (List.mem_cons_of_mem _)

/-- No key of a map that is made of a list is spelled anew. -/
theorem mem_of_mem_keys_ofList {q : Path} {entries : List (Path × α)}
    (h : q ∈ keys (ofList entries)) : q ∈ entries.map (·.1) := by
  have hfold : ∀ (entries : List (Path × α)) (m : PathMap α),
      q ∈ keys (entries.foldl (fun m e => insert e.1 e.2 m) m) →
      q ∈ keys m ∨ q ∈ entries.map (·.1) := by
    intro entries
    induction entries with
    | nil => exact fun m h => .inl h
    | cons e entries ih =>
      intro m h
      rcases ih _ h with h | h
      · rcases mem_keys_of_mem_insert h with rfl | h
        · exact .inr List.mem_cons_self
        · exact .inl h
      · exact .inr (List.mem_cons_of_mem _ h)
  exact (hfold entries [] h).resolve_left List.not_mem_nil

/-- Every key of a list is a key of the map that is made of it. -/
theorem has_ofList {p : Path} {v : α} {entries : List (Path × α)} (h : (p, v) ∈ entries) :
    has p (ofList entries) = true := by
  have hfold : ∀ (entries : List (Path × α)) (m : PathMap α),
      has p m = true ∨ (p, v) ∈ entries →
      has p (entries.foldl (fun m e => insert e.1 e.2 m) m) = true := by
    intro entries
    induction entries with
    | nil => exact fun m h => h.resolve_right List.not_mem_nil
    | cons e entries ih =>
      intro m h
      refine ih _ ?_
      rcases h with h | h
      · exact .inl (has_insert h)
      · rcases List.mem_cons.1 h with rfl | h
        · exact .inl (has_insert_self _ _ _)
        · exact .inr h
  exact hfold entries [] (.inr h)

/-- The insertion of a new key adds one entry. -/
theorem eq_or_mem_of_mem_insert {p : Path} {v : α} {m : PathMap α} {e : Path × α}
    (hnew : get? p m = none) (h : e ∈ insert p v m) : e = (p, v) ∨ e ∈ m := by
  induction m with
  | nil => exact .inl (by simpa [insert] using h)
  | cons f m ih =>
    obtain ⟨k, w⟩ := f
    simp only [get?] at hnew
    split at hnew
    · cases hnew
    · rename_i hk
      simp only [insert, hk] at h
      split at h
      · contradiction
      · split at h
        · exact List.mem_cons.1 h
        · rcases List.mem_cons.1 h with rfl | h
          · exact .inr List.mem_cons_self
          · exact (ih hnew h).imp_right (List.mem_cons_of_mem _)

/-! ## Some of the entries -/

section Filter
variable {K : List Part → Bool} {p : Path}

theorem get?_filter (hp : K p.parts = true) (m : PathMap α) :
    get? p (m.filter fun e => K e.1.parts) = get? p m := by
  induction m with
  | nil => rfl
  | cons e m ih =>
    obtain ⟨q, w⟩ := e
    rw [List.filter_cons]
    by_cases hq : q.parts = p.parts
    · simp [hq, hp, get?, Path.same]
    · split <;> simp [get?, Path.same, hq, ih]

/-- An insertion elsewhere. -/
theorem filter_insert (hp : K p.parts = false) (v : α) (m : PathMap α) :
    (insert p v m).filter (fun e => K e.1.parts) = m.filter fun e => K e.1.parts := by
  induction m with
  | nil => simp [insert, hp]
  | cons e m ih =>
    obtain ⟨q, w⟩ := e
    rw [insert]
    split
    · rename_i hq
      simp [Path.same_iff.1 hq, hp]
    · split
      · simp [List.filter_cons, hp]
      · rw [List.filter_cons, List.filter_cons, ih]

/-- A removal elsewhere. -/
theorem filter_erase (hp : K p.parts = false) (m : PathMap α) :
    (erase p m).filter (fun e => K e.1.parts) = m.filter fun e => K e.1.parts := by
  rw [erase, List.filter_filter]
  refine List.filter_congr fun e _ => ?_
  by_cases hq : e.1.parts = p.parts
  · simp [hq, hp]
  · simp [Path.same, hq]

end Filter

/-! ## What is left -/

theorem has_erase (p q : Path) (m : PathMap α) :
    has q (erase p m) = true ↔ p.parts ≠ q.parts ∧ has q m = true := by
  rw [has, get?_erase]
  by_cases h : p.parts = q.parts
  · simp [h]
  · simp [h, has]

/-- Whether one map is what is left of another: the entries whose keys it still has. -/
def LeftOf (whole left : PathMap α) : Prop := left = whole.filter fun e => has e.1 left

theorem leftOf_refl (m : PathMap α) : LeftOf m m :=
  (List.filter_eq_self.2 fun _ he => has_of_mem he).symm

theorem LeftOf.erase {whole left : PathMap α} (h : LeftOf whole left) (p : Path) :
    LeftOf whole (erase p left) := by
  have hkeys : ∀ e : Path × α, has e.1 (PathMap.erase p left) = (!e.1.same p && has e.1 left) := by
    intro e
    rw [has, get?_erase, Path.same]
    by_cases hp : p.parts = e.1.parts
    · simp [hp]
    · simp [hp, Ne.symm hp, has]
  calc PathMap.erase p left
      = (whole.filter fun e => has e.1 left).filter fun e => !e.1.same p :=
        congrArg (PathMap.erase p) h
    _ = whole.filter fun e => !e.1.same p && has e.1 left := List.filter_filter
    _ = whole.filter fun e => has e.1 (PathMap.erase p left) :=
        List.filter_congr fun e _ => (hkeys e).symm

theorem LeftOf.has {whole left : PathMap α} (h : LeftOf whole left) {p : Path}
    (hp : has p left = true) : has p whole = true := by
  obtain ⟨q, hq, hparts⟩ := has_iff_exists_mem.1 hp
  obtain ⟨e, he, rfl⟩ := List.mem_map.1 hq
  rw [h] at he
  exact has_iff_exists_mem.2 ⟨e.1, List.mem_map_of_mem (List.mem_filter.1 he).1, hparts⟩

/-- What is left of a map is told by the keys that are left. -/
theorem LeftOf.eq {whole left left' : PathMap α} (h : LeftOf whole left) (h' : LeftOf whole left')
    (hkeys : ∀ p, PathMap.has p left = PathMap.has p left') : left = left' := by
  rw [h, h']
  exact List.filter_congr fun e _ => hkeys e.1

end AgentDocs.PathMap
