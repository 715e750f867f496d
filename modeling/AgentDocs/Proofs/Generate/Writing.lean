import AgentDocs.Proofs.Generate.Claims
import AgentDocs.Proofs.Store.Files

/-! # What writing leaves in a store in memory

Artifacts with different places are all there after they were committed; stale entries with
different places are gone after they were removed, and those that were files are reported. All
other files are as they were. -/
namespace AgentDocs
open Effect Store

/-! ## Committing -/

namespace Artifacts

theorem sameFiles_ensureParent (p : Path) : Moves SameFiles (ensureParent p) := by
  unfold ensureParent
  split
  · exact moves_pure _
  · refine (sameFiles_isDir _).bind fun found => ?_
    split
    · exact moves_pure _
    · exact sameFiles_createDirs _

theorem files_of_writeItem {root : Path} {a : Artifact} {m : Memory} {t : Store}
    (h : writeItem root a (.memory m) = (.ok (), t)) :
    ∃ m', t = .memory m' ∧
      m'.files = PathMap.insert (root.child a.path) (.text a.content) m.files := by
  obtain ⟨_, s₁, hdir, hwrite⟩ := exists_of_bind_ok h
  obtain ⟨m₁, rfl, hm₁⟩ := files_of_moves (sameFiles_ensureParent _) hdir
  obtain ⟨m₂, rfl, hm₂⟩ := files_of_writeText hwrite
  exact ⟨m₂, rfl, hm₁ ▸ hm₂⟩

/-- Whether all artifacts have places of their own. -/
def Apart (root : Path) (items : List Artifact) : Prop :=
  items.Pairwise fun a b => (root.child a.path).parts ≠ (root.child b.path).parts

theorem files_of_forM_writeItem {root : Path} {items : List Artifact} (hapart : Apart root items)
    {m : Memory} {t : Store} (h : items.forM (writeItem root) (.memory m) = (.ok (), t)) :
    ∃ m', t = .memory m' ∧
      (∀ a ∈ items, PathMap.get? (root.child a.path) m'.files = some (.text a.content)) ∧
      ∀ p, (∀ a ∈ items, (root.child a.path).parts ≠ p.parts) →
        PathMap.get? p m'.files = PathMap.get? p m.files := by
  induction items generalizing m with
  | nil =>
    cases h
    exact ⟨m, rfl, by simp, fun _ _ => rfl⟩
  | cons a items ih =>
    obtain ⟨ha, hitems⟩ := List.pairwise_cons.1 hapart
    obtain ⟨_, s₁, hfirst, hrest⟩ := exists_of_bind_ok h
    obtain ⟨m₁, rfl, hm₁⟩ := files_of_writeItem hfirst
    obtain ⟨m₂, rfl, hwritten, hothers⟩ := ih hitems hrest
    refine ⟨m₂, rfl, fun b hb => ?_, fun p hp => ?_⟩
    · rcases List.mem_cons.1 hb with rfl | hb
      · rw [hothers _ fun c hc => (ha c hc).symm, hm₁, PathMap.get?_insert_of_same rfl]
      · exact hwritten b hb
    · rw [hothers p fun c hc => hp c (List.mem_cons_of_mem _ hc), hm₁,
        PathMap.get?_insert_of_ne (hp a List.mem_cons_self)]

theorem commit_ok {as : Artifacts} {written : List String} {s t : Store}
    (h : as.commit s = (.ok written, t)) :
    as.items.forM (writeItem as.root) s = (.ok (), t) ∧ written = as.items.map (·.path) := by
  obtain ⟨_, s₁, hforM, hpure⟩ := exists_of_bind_ok h
  cases hpure
  exact ⟨hforM, rfl⟩

/-- For an absolute root an artifact is written where its path leads. -/
theorem Collected.parts_child {root : Path} {as : Artifacts} (h : Collected root as)
    (habs : root.isAbsolute = true) {a : Artifact} (ha : a ∈ as.items) :
    (as.root.child a.path).parts = (placeOf root a.path).parts := by
  obtain ⟨names, hpath, hnames, hplace⟩ := (h.below a ha).parts_placeOf root
  have htext : root.normal.text ≠ "" := by
    intro he
    have := Path.isAbsolute_normal habs
    simp [Path.isAbsolute, he] at this
  rw [hplace, h.root_eq, hpath, Path.parts_child_slashed htext hnames]

theorem Collected.apart {root : Path} {as : Artifacts} (h : Collected root as)
    (habs : root.isAbsolute = true) : Apart as.root as.items := by
  have hsorted := List.pairwise_map.1 h.sorted
  refine hsorted.imp_of_mem fun {a b} ha hb hlt he => ?_
  rw [h.parts_child habs ha, h.parts_child habs hb] at he
  rw [placeOf_injective (h.below a ha) (h.below b hb) he] at hlt
  exact String.lt_irrefl _ hlt

end Artifacts

/-! ## Removing -/

theorem sameFiles_pruneDirs (root : Path) (dirs : List Path) :
    Moves SameFiles (pruneDirs root dirs) := by
  induction dirs with
  | nil => exact moves_pure _
  | cons dir outer ih =>
    unfold pruneDirs
    split
    · exact moves_pure _
    refine (sameFiles_isDir _).bind fun found => ?_
    split
    · exact moves_pure _
    refine (sameFiles_isEmptyDir _).bind fun empty => ?_
    split
    · exact moves_pure _
    · exact (sameFiles_removeDir _).bind fun _ => ih

/-- In memory a directory goes, and the walk goes on, if it is strictly inside and empty. -/
theorem pruneDirs_cons (root dir : Path) (outer : List Path) (m : Memory) :
    pruneDirs root (dir :: outer) (.memory m) =
      if dir.same root || !dir.isWithin root || !m.isDir dir || !(m.childrenOf dir).isEmpty then
        (.ok (), .memory m)
      else pruneDirs root outer (.memory { m with dirs := PathMap.erase dir m.dirs }) := by
  have hisDir : Store.isDir dir (.memory m) = (.ok (m.isDir dir), .memory m) := rfl
  rw [pruneDirs]
  cases hstop : (dir.same root || !dir.isWithin root) with
  | true => rfl
  | false =>
    rw [if_neg Bool.false_ne_true, bind_ok hisDir, Bool.false_or]
    cases hd : m.isDir dir with
    | false => rfl
    | true =>
      have hempty : isEmptyDir dir (.memory m) = (.ok (m.childrenOf dir).isEmpty, .memory m) := by
        have hchildren : children dir (.memory m) = (.ok (m.childrenOf dir), .memory m) := by
          simp only [children, query, Memory.children, hd, if_true]
        exact bind_ok hchildren
      rw [Bool.not_true, if_neg Bool.false_ne_true, bind_ok hempty, Bool.false_or]
      cases he : (m.childrenOf dir).isEmpty with
      | false => rfl
      | true =>
        have hremove : removeDir dir (.memory m)
            = (.ok (), .memory { m with dirs := PathMap.erase dir m.dirs }) := by
          simp only [removeDir, change, Memory.removeDir, hd, he, Bool.not_true, if_true,
            if_neg Bool.false_ne_true]
        rw [Bool.not_true, if_neg Bool.false_ne_true, bind_ok hremove, if_neg Bool.false_ne_true]

theorem exists_of_pruneDirs (root : Path) (dirs : List Path) (m : Memory) :
    ∃ m', pruneDirs root dirs (.memory m) = (.ok (), .memory m') := by
  induction dirs generalizing m with
  | nil => exact ⟨m, rfl⟩
  | cons dir outer ih =>
    rw [pruneDirs_cons]
    split
    · exact ⟨m, rfl⟩
    · exact ih _

/-! ### One stale entry -/

section
variable {root : Path} {entry : String} {entries : List String} {s s₁ s₂ : Store}

theorem removeStale_skip (hask : isFile (placeOf root entry) s = (.ok false, s)) :
    removeStale root (entry :: entries) s = removeStale root entries s :=
  bind_ok hask

theorem removeStale_fail {e : Store.Error} (hask : isFile (placeOf root entry) s = (.error e, s)) :
    removeStale root (entry :: entries) s = (.error e, s) :=
  bind_error hask

theorem removeStale_remove (hask : isFile (placeOf root entry) s = (.ok true, s))
    (hremove : remove (placeOf root entry) s = (.ok (), s₁))
    (hprune : pruneDirs root (placeOf root entry).ancestors.tail s₁ = (.ok (), s₂)) :
    removeStale root (entry :: entries) s
      = ((removeStale root entries s₂).1.map (entry :: ·), (removeStale root entries s₂).2) := by
  have hrest : removeStale root (entry :: entries) s = (do
      Store.remove (placeOf root entry)
      pruneDirs root (placeOf root entry).ancestors.tail
      return entry :: (← removeStale root entries) : Access (List String)) s := bind_ok hask
  rw [hrest, bind_ok hremove, bind_ok hprune, bind_apply]
  cases removeStale root entries s₂ with
  | mk result t => cases result <;> rfl

end

theorem removeStale_of_not_isFile {root : Path} {entry : String} {entries : List String}
    {m : Memory} (hfile : m.isFile (placeOf root entry) = false) :
    removeStale root (entry :: entries) (.memory m) = removeStale root entries (.memory m) :=
  removeStale_skip (hfile ▸ isFile_memory _ m)

theorem removeStale_of_isFile {root : Path} {entry : String} {entries : List String}
    {m m' : Memory} (hfile : m.isFile (placeOf root entry) = true)
    (hprune : pruneDirs root (placeOf root entry).ancestors.tail
      (.memory { m with files := PathMap.erase (placeOf root entry) m.files })
        = (.ok (), .memory m')) :
    removeStale root (entry :: entries) (.memory m)
      = ((removeStale root entries (.memory m')).1.map (entry :: ·),
        (removeStale root entries (.memory m')).2) := by
  have hremove : remove (placeOf root entry) (.memory m)
      = (.ok (), .memory { m with files := PathMap.erase (placeOf root entry) m.files }) := by
    simp only [remove, change, Memory.remove, hfile, if_true]
  exact removeStale_remove (hfile ▸ isFile_memory _ m) hremove hprune

/-- The place of one entry is cleared, and nothing else. -/
theorem removeStale_cons {root : Path} {entry : String} {entries deleted : List String}
    {m : Memory} {t : Store}
    (h : removeStale root (entry :: entries) (.memory m) = (.ok deleted, t)) :
    ∃ m' rest, removeStale root entries (.memory m') = (.ok rest, t) ∧
      deleted = (if m.isFile (placeOf root entry) then entry :: rest else rest) ∧
      ∀ p, PathMap.get? p m'.files
        = if (placeOf root entry).parts = p.parts then none else PathMap.get? p m.files := by
  cases hfile : m.isFile (placeOf root entry) with
  | false =>
    rw [removeStale_of_not_isFile hfile] at h
    refine ⟨m, deleted, h, rfl, fun p => ?_⟩
    split
    · rename_i hp
      rw [← PathMap.get?_congr hp]
      exact Option.isNone_iff_eq_none.1 (Option.isSome_eq_false_iff.1 hfile)
    · rfl
  | true =>
    obtain ⟨m₁, hprune⟩ := exists_of_pruneDirs root (placeOf root entry).ancestors.tail
      { m with files := PathMap.erase (placeOf root entry) m.files }
    obtain ⟨_, hm₁, hfiles⟩ := files_of_moves (sameFiles_pruneDirs _ _) hprune
    cases hm₁
    rw [removeStale_of_isFile hfile hprune] at h
    obtain ⟨hrest, rfl⟩ := Prod.mk.inj h
    cases hrun : removeStale root entries (.memory m₁) with
    | mk result t =>
      cases result with
      | error e =>
        rw [hrun] at hrest
        cases hrest
      | ok rest =>
        rw [hrun] at hrest
        cases hrest
        refine ⟨m₁, rest, hrun, rfl, fun p => ?_⟩
        rw [hfiles]
        exact PathMap.get?_erase _ _ _

/-- The places of all entries are cleared, however they are spelled, and nothing else. -/
theorem get?_of_removeStale {root : Path} {entries deleted : List String} {m : Memory} {t : Store}
    (h : removeStale root entries (.memory m) = (.ok deleted, t)) :
    ∃ m', t = .memory m' ∧
      (∀ p, (∃ e ∈ entries, (placeOf root e).parts = p.parts) → PathMap.get? p m'.files = none) ∧
      ∀ p, (∀ e ∈ entries, (placeOf root e).parts ≠ p.parts) →
        PathMap.get? p m'.files = PathMap.get? p m.files := by
  induction entries generalizing m deleted with
  | nil =>
    cases h
    exact ⟨m, rfl, by simp, fun _ _ => rfl⟩
  | cons entry entries ih =>
    obtain ⟨m₁, rest, hrest, _, hm₁⟩ := removeStale_cons h
    obtain ⟨m₂, rfl, hgone, hkept⟩ := ih hrest
    refine ⟨m₂, rfl, fun p hp => ?_, fun p hp => ?_⟩
    · by_cases hlater : ∃ e ∈ entries, (placeOf root e).parts = p.parts
      · exact hgone p hlater
      · obtain ⟨e, he, hep⟩ := hp
        rcases List.mem_cons.1 he with rfl | he
        · rw [hkept p fun e he hep => hlater ⟨e, he, hep⟩, hm₁, if_pos hep]
        · exact absurd ⟨e, he, hep⟩ hlater
    · rw [hkept p fun e he => hp e (List.mem_cons_of_mem _ he), hm₁,
        if_neg (hp entry List.mem_cons_self)]

theorem files_of_removeStale {root : Path} {entries : List String}
    (hapart : entries.Pairwise fun a b => (placeOf root a).parts ≠ (placeOf root b).parts)
    {m : Memory} {deleted : List String} {t : Store}
    (h : removeStale root entries (.memory m) = (.ok deleted, t)) :
    ∃ m', t = .memory m' ∧ deleted = entries.filter (fun e => m.isFile (placeOf root e)) ∧
      (∀ e ∈ entries, PathMap.get? (placeOf root e) m'.files = none) ∧
      ∀ p, (∀ e ∈ entries, (placeOf root e).parts ≠ p.parts) →
        PathMap.get? p m'.files = PathMap.get? p m.files := by
  obtain ⟨m', ht, hgone, hkept⟩ := get?_of_removeStale h
  refine ⟨m', ht, ?_, fun e he => hgone _ ⟨e, he, rfl⟩, hkept⟩
  clear ht hgone hkept
  induction entries generalizing m deleted with
  | nil =>
    cases h
    rfl
  | cons entry entries ih =>
    obtain ⟨hentry, hentries⟩ := List.pairwise_cons.1 hapart
    obtain ⟨m₁, rest, hrest, rfl, hm₁⟩ := removeStale_cons h
    have hsame : entries.filter (fun e => m₁.isFile (placeOf root e))
        = entries.filter fun e => m.isFile (placeOf root e) :=
      List.filter_congr fun e he => isFile_congr (by rw [hm₁, if_neg (hentry e he)])
    rw [List.filter_cons, ih hentries hrest, hsame]

end AgentDocs
