import AgentDocs.Proofs.Store.Subdirs
import AgentDocs.Proofs.Text.Bytes
import Mathlib.Data.List.Dedup

/-! # Walking a directory depth first

What is in a directory is a forest: files, and directories with forests of their own. A walk goes
through it depth first, siblings one after another. Where siblings are in the order of the bytes of
their names, the walk is in the order of places, name by name. -/
namespace AgentDocs.Store
open Text

/-- What is right inside a directory, and inside of the directories there. -/
inductive Forest where
  | nil
  | file (name : String) (rest : Forest)
  | directory (name : String) (inside rest : Forest)
  deriving DecidableEq, Repr

namespace Forest

/-- The names of the siblings. -/
def names : Forest → List String
  | nil => []
  | file name rest => name :: rest.names
  | directory name _ rest => name :: rest.names

/-- Whether siblings are in the order of the bytes of their names. -/
def InByteOrder : Forest → Prop
  | nil => True
  | file name rest => (∀ other ∈ rest.names, bytes name < bytes other) ∧ rest.InByteOrder
  | directory name inside rest =>
    (∀ other ∈ rest.names, bytes name < bytes other) ∧ inside.InByteOrder ∧ rest.InByteOrder

/-- What stands at a place. -/
def kind? : Forest → Place → Option Kind
  | _, [] => none
  | nil, _ => none
  | file name rest, first :: more =>
    if first = name then (if more = [] then some .file else none) else rest.kind? (first :: more)
  | directory name inside rest, first :: more =>
    if first = name then (if more = [] then some .directory else inside.kind? more)
    else rest.kind? (first :: more)

/-- The files, depth first. -/
def walk : Forest → List Place
  | nil => []
  | file name rest => [name] :: rest.walk
  | directory name inside rest => inside.walk.map (name :: ·) ++ rest.walk

variable {forest : Forest} {place : Place}

@[simp] theorem kind?_nil_place (forest : Forest) : forest.kind? [] = none := by
  cases forest <;> rfl

/-! ## The order of a walk -/

theorem exists_of_mem_walk (h : place ∈ forest.walk) :
    ∃ name more, place = name :: more ∧ name ∈ forest.names := by
  induction forest with
  | nil => cases h
  | file name rest ih =>
    obtain rfl | h := List.mem_cons.1 h
    · exact ⟨name, [], rfl, List.mem_cons_self⟩
    · obtain ⟨first, more, hplace, hfirst⟩ := ih h
      exact ⟨first, more, hplace, List.mem_cons_of_mem _ hfirst⟩
  | directory name inside rest _ ih =>
    obtain h | h := List.mem_append.1 h
    · obtain ⟨more, _, rfl⟩ := List.mem_map.1 h
      exact ⟨name, more, rfl, List.mem_cons_self⟩
    · obtain ⟨first, more, hplace, hfirst⟩ := ih h
      exact ⟨first, more, hplace, List.mem_cons_of_mem _ hfirst⟩

theorem placeBefore_cons_of_bytes {a b : String} (h : bytes a < bytes b) (as bs : Place) :
    placeBefore (a :: as) (b :: bs) = true := by
  have hlt : a < b := bytes_lt_iff.1 h
  have hne : a ≠ b := fun heq => String.lt_irrefl b (heq ▸ hlt)
  rw [placeBefore, if_neg hne]
  exact decide_eq_true hlt

theorem sorted_walk (h : forest.InByteOrder) :
    forest.walk.Pairwise fun a b => placeBefore a b = true := by
  induction forest with
  | nil => exact List.Pairwise.nil
  | file name rest ih =>
    refine List.pairwise_cons.2 ⟨fun place hplace => ?_, ih h.2⟩
    obtain ⟨first, more, rfl, hfirst⟩ := exists_of_mem_walk hplace
    exact placeBefore_cons_of_bytes (h.1 first hfirst) [] more
  | directory name inside rest ihinside ihrest =>
    refine List.pairwise_append.2 ⟨List.pairwise_map.2 ?_, ihrest h.2.2, fun a ha b hb => ?_⟩
    · refine (ihinside h.2.1).imp fun hbefore => ?_
      rwa [placeBefore, if_pos rfl]
    · obtain ⟨more, _, rfl⟩ := List.mem_map.1 ha
      obtain ⟨first, more', rfl, hfirst⟩ := exists_of_mem_walk hb
      exact placeBefore_cons_of_bytes (h.1 first hfirst) more more'

/-- What is inside of a directory is not reached from its later siblings. -/
theorem notMem_walk {name : String} {rest : Forest}
    (h : ∀ other ∈ rest.names, bytes name < bytes other) (more : Place) :
    name :: more ∉ rest.walk := by
  intro hmem
  obtain ⟨other, _, heq, hother⟩ := exists_of_mem_walk hmem
  obtain ⟨rfl, -⟩ := List.cons.inj heq
  exact List.lt_irrefl _ (h name hother)

/-- A walk reaches the files that stand in the forest. -/
theorem mem_walk_iff (h : forest.InByteOrder) :
    place ∈ forest.walk ↔ forest.kind? place = some .file := by
  induction forest generalizing place with
  | nil => cases place <;> exact iff_of_false List.not_mem_nil nofun
  | file name rest ih =>
    rw [walk, List.mem_cons, ih h.2]
    cases place with
    | nil => simp
    | cons first more =>
      rw [kind?]
      by_cases hfirst : first = name
      · subst hfirst
        have hrest : rest.kind? (first :: more) ≠ some .file := fun hkind =>
          notMem_walk h.1 more ((ih h.2).2 hkind)
        simp [hrest]
      · simp [hfirst]
  | directory name inside rest ihinside ihrest =>
    rw [walk, List.mem_append, List.mem_map, ihrest h.2.2]
    cases place with
    | nil => simp
    | cons first more =>
      rw [kind?]
      by_cases hfirst : first = name
      · subst hfirst
        have hrest : rest.kind? (first :: more) ≠ some .file := fun hkind =>
          notMem_walk h.1 more ((ihrest h.2.2).2 hkind)
        have hmore : more ∈ inside.walk ↔ inside.kind? more = some .file := ihinside h.2.1
        by_cases hnil : more = []
        · subst hnil
          simp [hrest, hmore]
        · simp [hrest, hmore, hnil]
      · simp [hfirst, Ne.symm hfirst]

end Forest

/-! ## The forest of a layout -/

/-- Whether around everything that stands somewhere there is a directory. -/
def Treelike (layout : Place → Option Kind) : Prop :=
  ∀ place name, place ≠ [] → layout (place ++ [name]) ≠ none → layout place = some .directory

section Layout
variable {layout : Place → Option Kind}

theorem Treelike.inside (h : Treelike layout) (name : String) :
    Treelike fun place => layout (name :: place) :=
  fun place last _ => h (name :: place) last (List.cons_ne_nil _ _)

theorem Treelike.around (h : Treelike layout) {name : String} {more : Place} (hne : more ≠ [])
    (hmore : layout (name :: more) ≠ none) : layout [name] = some .directory := by
  induction more using List.reverseRecOn with
  | nil => exact absurd rfl hne
  | append_singleton more last ih =>
    have hdir : layout (name :: more) = some .directory :=
      h (name :: more) last (List.cons_ne_nil _ _) hmore
    by_cases hnil : more = []
    · rwa [hnil] at hdir
    · exact ih hnil (by rw [hdir]; nofun)

/-- Names in the order of their bytes. -/
theorem exists_ordered_names (all : List String) :
    ∃ names : List String, names.Pairwise (fun a b => bytes a < bytes b) ∧
      ∀ name, name ∈ names ↔ name ∈ all := by
  have hsorted : (all.dedup.mergeSort fun a b => decide (a ≤ b)).Pairwise
      fun a b => decide (a ≤ b) = true := by
    refine List.pairwise_mergeSort (fun a b c hab hbc => ?_) (fun a b => ?_) all.dedup
    · rw [decide_eq_true_eq] at hab hbc ⊢
      exact String.le_trans hab hbc
    · simpa using String.le_total a b
  have hnodup : (all.dedup.mergeSort fun a b => decide (a ≤ b)).Nodup :=
    (List.mergeSort_perm _ _).nodup_iff.2 (List.nodup_dedup all)
  refine ⟨_, (hsorted.and hnodup).imp fun hab => ?_, fun name => ?_⟩
  · exact bytes_lt_iff.2 (Std.lt_of_le_of_ne (of_decide_eq_true hab.1) hab.2)
  · rw [List.mem_mergeSort, List.mem_dedup]

/-- Whether a forest has what stands somewhere behind given names. -/
structure StandsFor (layout : Place → Option Kind) (names : List String) (forest : Forest) : Prop where
  ordered : forest.InByteOrder
  named : ∀ name ∈ forest.names, name ∈ names
  kinds : ∀ first more,
    forest.kind? (first :: more) = if first ∈ names then layout (first :: more) else none

namespace StandsFor
variable {name : String} {names : List String} {rest : Forest}

/-- What is put in front of a forest changes it behind one name. -/
theorem cons (h : StandsFor layout names rest) {forest : Forest} (hordered : forest.InByteOrder)
    (hnames : ∀ other ∈ forest.names, other = name ∨ other ∈ rest.names)
    (hhere : ∀ more, forest.kind? (name :: more) = layout (name :: more))
    (hother : ∀ first more, first ≠ name → forest.kind? (first :: more) = rest.kind? (first :: more)) :
    StandsFor layout (name :: names) forest where
  ordered := hordered
  named other hmem := List.mem_cons.2 ((hnames other hmem).imp_right (h.named other))
  kinds first more := by
    by_cases hfirst : first = name
    · rw [hfirst, if_pos List.mem_cons_self, hhere]
    · rw [hother first more hfirst, h.kinds]
      simp [hfirst]

theorem before (h : StandsFor layout names rest)
    (hfirst : ∀ other ∈ names, bytes name < bytes other) :
    ∀ other ∈ rest.names, bytes name < bytes other :=
  fun other hother => hfirst other (h.named other hother)

theorem absent (h : StandsFor layout names rest)
    (hfirst : ∀ other ∈ names, bytes name < bytes other) (hnone : ∀ more, layout (name :: more) = none) :
    StandsFor layout (name :: names) rest := by
  refine h.cons h.ordered (fun _ => .inr) (fun more => ?_) fun _ _ _ => rfl
  rw [h.kinds, if_neg fun hmem => List.lt_irrefl _ (hfirst name hmem), hnone]

theorem file (h : StandsFor layout names rest)
    (hfirst : ∀ other ∈ names, bytes name < bytes other) (hfile : layout [name] = some .file)
    (hnone : ∀ more, more ≠ [] → layout (name :: more) = none) :
    StandsFor layout (name :: names) (.file name rest) := by
  refine h.cons ⟨h.before hfirst, h.ordered⟩ (fun _ => List.mem_cons.1) (fun more => ?_)
    fun first more hne => ?_
  · rw [Forest.kind?, if_pos rfl]
    split
    · rename_i hnil
      rw [hnil, hfile]
    · exact (hnone more ‹_›).symm
  · rw [Forest.kind?, if_neg hne]

theorem directory (h : StandsFor layout names rest)
    (hfirst : ∀ other ∈ names, bytes name < bytes other) (hdir : layout [name] = some .directory)
    {inside : Forest} (hinside : inside.InByteOrder)
    (hkinds : ∀ more, more ≠ [] → inside.kind? more = layout (name :: more)) :
    StandsFor layout (name :: names) (.directory name inside rest) := by
  refine h.cons ⟨h.before hfirst, hinside, h.ordered⟩ (fun _ => List.mem_cons.1) (fun more => ?_)
    fun first more hne => ?_
  · rw [Forest.kind?, if_pos rfl]
    split
    · rename_i hnil
      rw [hnil, hdir]
    · exact hkinds more ‹_›
  · rw [Forest.kind?, if_neg hne]

end StandsFor

/-- Siblings with given names, if there are forests to stand inside of them. -/
theorem exists_siblings (h : Treelike layout) {names : List String}
    (hordered : names.Pairwise fun a b => bytes a < bytes b)
    (hinside : ∀ name, ∃ inside : Forest, inside.InByteOrder ∧
      ∀ place, place ≠ [] → inside.kind? place = layout (name :: place)) :
    ∃ forest, StandsFor layout names forest := by
  induction names with
  | nil => exact ⟨.nil, trivial, fun _ => id, fun _ _ => rfl⟩
  | cons name names ih =>
    obtain ⟨hfirst, hrest⟩ := List.pairwise_cons.1 hordered
    obtain ⟨rest, hstands⟩ := ih hrest
    have hempty : layout [name] ≠ some .directory → ∀ more, more ≠ [] →
        layout (name :: more) = none :=
      fun hno more hne => Decidable.byContradiction fun hsome => hno (h.around hne hsome)
    cases hkind : layout [name] with
    | none =>
      refine ⟨rest, hstands.absent hfirst fun more => ?_⟩
      by_cases hnil : more = []
      · rw [hnil, hkind]
      · exact hempty (by rw [hkind]; nofun) more hnil
    | some kind =>
      cases kind with
      | file => exact ⟨_, hstands.file hfirst hkind (hempty (by rw [hkind]; nofun))⟩
      | directory =>
        obtain ⟨inside, hinsideOrder, hinsideKinds⟩ := hinside name
        exact ⟨_, hstands.directory hfirst hkind hinsideOrder hinsideKinds⟩

/-- What stands at finitely many places is a forest. -/
theorem exists_forest {layout : Place → Option Kind} (h : Treelike layout) {depth : Nat}
    {names : List String} (hfinite : ∀ place, layout place ≠ none →
      place.length ≤ depth ∧ ∀ name ∈ place, name ∈ names) :
    ∃ forest : Forest, forest.InByteOrder ∧ ∀ place, place ≠ [] → forest.kind? place = layout place := by
  induction depth generalizing layout with
  | zero =>
    refine ⟨.nil, trivial, fun place hne => ?_⟩
    cases hkind : layout place with
    | none => cases place <;> rfl
    | some kind =>
      have hlength := (hfinite place (by rw [hkind]; nofun)).1
      exact absurd (List.length_eq_zero_iff.1 (Nat.le_zero.1 hlength)) hne
  | succ depth ih =>
    obtain ⟨ordered, hordered, hmem⟩ := exists_ordered_names names
    obtain ⟨forest, hstands⟩ := exists_siblings h hordered fun name =>
      ih (h.inside name) fun place hplace => by
        obtain ⟨hlength, hnames⟩ := hfinite (name :: place) hplace
        exact ⟨Nat.le_of_succ_le_succ hlength, fun other hother =>
          hnames other (List.mem_cons_of_mem _ hother)⟩
    refine ⟨forest, hstands.ordered, fun place hne => ?_⟩
    obtain ⟨first, more, rfl⟩ := List.exists_cons_of_ne_nil hne
    rw [hstands.kinds]
    split
    · rfl
    · rename_i hnot
      refine (Decidable.byContradiction fun hsome => hnot ?_)
      exact (hmem first).2 ((hfinite _ (Ne.symm hsome)).2 first List.mem_cons_self)

end Layout
end AgentDocs.Store
