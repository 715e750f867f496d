import AgentDocs.Proofs.Generate.Gather
import AgentDocs.Proofs.Generate.Stages
import AgentDocs.Proofs.Store.Order
import AgentDocs.Proofs.Template.Declared
import AgentDocs.Proofs.Template.Headed

/-! # The order of templates

Templates are found in the order of their paths. They are expanded in the order of their ranks, main
templates last, and where two have one rank, they stay in the order in which they were found. -/
namespace AgentDocs
open Effect Markup Store Session Template

namespace Template

theorem Priority.not_precedes_iff {p q : Priority} :
    q.precedes p = false ↔ ∀ b, q = .ranked b → ∃ a, p = .ranked a ∧ b ≤ a := by
  cases p <;> cases q <;> simp [Priority.precedes]

/-- A template has directives, and their priority, or headers. -/
theorem classify_cases {source : Path.Placed} {document : List Char} {t : Template}
    (h : classify source document = .ok t) :
    t.source = source ∧
      ((∃ data spec, Spec.read data = .ok spec ∧ t.kind = .directives spec ∧
          t.priority = spec.priority) ∨
        ∃ headers, t.kind = .headers headers) := by
  unfold classify at h
  dsimp only at h
  split at h
  · obtain ⟨spec, hspec, h⟩ := Except.exists_of_bind_ok h
    cases h
    exact ⟨rfl, .inl ⟨_, spec, Except.of_mapError_ok hspec, rfl, rfl⟩⟩
  · obtain ⟨found, hfound, h⟩ := Except.exists_of_bind_ok h
    obtain hnone | ⟨_, _, herror⟩ | ⟨_, headed, _, hheaded⟩ :=
      ofHeaders_cases source document (lenientPriority (dataOf (readFrontmatter document)))
    · rw [hnone] at hfound
      cases hfound
      dsimp only at h
      split at h <;> cases h
    · rw [herror] at hfound
      cases hfound
    · rw [hheaded] at hfound
      cases hfound
      cases h
      exact ⟨rfl, .inr ⟨_, rfl⟩⟩

/-- A template with directives has the main priority exactly if they are those of a main template. -/
theorem main_of_classify {source : Path.Placed} {document : List Char} {t : Template}
    (h : classify source document = .ok t) {spec : Spec} (hkind : t.kind = .directives spec) :
    spec.main = true ↔ t.priority = .main := by
  obtain ⟨_, ⟨data, spec', hspec, hkind', hpriority⟩ | ⟨headers, hheaders⟩⟩ := classify_cases h
  · obtain rfl := Kind.directives.inj (hkind.symm.trans hkind')
    rw [hpriority]
    exact (Spec.read_eq_ok_iff.1 hspec).main_iff
  · rw [hheaders] at hkind
    cases hkind

end Template

namespace Generator
variable {g : Generator}

theorem orderedInsert_filter {l : List Template} (t : Template) (p : Priority) :
    (l.orderedInsert NotAfter t).filter (·.priority = p) = (t :: l).filter (·.priority = p) := by
  induction l with
  | nil => rfl
  | cons u l ih =>
    rw [List.orderedInsert_cons]
    split
    · rfl
    · rename_i hafter
      have hne : t.priority ≠ u.priority := fun heq =>
        hafter (Priority.not_precedes_iff.2 fun b hb => ⟨b, heq ▸ hb, le_refl b⟩)
      rw [List.filter_cons, ih]
      by_cases ht : t.priority = p
      · have hu : u.priority ≠ p := fun hu => hne (ht.trans hu.symm)
        simp [ht, hu]
      · simp [List.filter_cons, ht]

/-- How templates that were found are put in order. -/
structure Ordered (discovered templates : List Template) : Prop where
  perm : templates.Perm discovered
  /-- No template has a higher rank than one before it, and those behind a main one are main. -/
  descending : templates.Pairwise fun t u =>
    ∀ b, u.priority = .ranked b → ∃ a, t.priority = .ranked a ∧ b ≤ a
  /-- Those of one priority are in the order in which they were found. -/
  stable : ∀ p, templates.filter (·.priority = p) = discovered.filter (·.priority = p)

theorem ordered_inOrder (discovered : List Template) :
    Ordered discovered (inOrder discovered) where
  perm := List.mergeSort_perm _ _
  descending := by
    rw [inOrder_eq]
    have : Std.Total NotAfter := ⟨notAfter_total⟩
    have : IsTrans Template NotAfter := ⟨fun _ _ _ => notAfter_trans⟩
    exact (List.pairwise_insertionSort NotAfter discovered).imp Priority.not_precedes_iff.1
  stable p := by
    rw [inOrder_eq]
    induction discovered with
    | nil => rfl
    | cons t discovered ih =>
      rw [List.insertionSort_cons, orderedInsert_filter, List.filter_cons, ih, List.filter_cons]

/-! ## Finding templates -/

/-- Whether a file of a store is a template. -/
def ReadsAs (root : Path) (store : Store) (file : Path) (t : Template) : Prop :=
  ∃ text, file.placed? root = some t.source ∧ (Store.readText file store).1 = .ok text ∧
    classify t.source text.toList = .ok t

/-- Templates that are found in a store, one for each file in the order of the files. -/
def Discovered (project : Project) (store : Store) (templates : List Template) : Prop :=
  ∃ files, (Store.listFiles project.sourceDir "*.md" store).1 = .ok files ∧
    files.Pairwise (fun p q => p.before q = true) ∧
    List.Forall₂ (ReadsAs project.root store)
      (files.filter (isTemplate project.config.reservedFile)) templates

theorem readsAs_of_readTemplate {root p : Path} {s s' t : Store} (hs : SameContent s s')
    {template : Template} (h : readTemplate root p s' = (.ok template, t)) :
    ReadsAs root s p template := by
  unfold readTemplate at h
  cases hplaced : p.placed? root with
  | none =>
    rw [hplaced] at h
    cases h
  | some source =>
    rw [hplaced] at h
    obtain ⟨text, u, htext, h⟩ := exists_of_bind_ok h
    have hclassify : classify source text.toList = .ok template := congrArg (·.1) h
    obtain rfl := (classify_cases hclassify).1
    refine ⟨text, hplaced, ?_, hclassify⟩
    rw [readText_congr hs, Task.wrapError_ok.1 htext]

theorem discovered_of_ok {project : Project} {s s' t : Store} (hsorted : s.Sorted)
    (hs : SameContent s s') {templates : List Template}
    (h : discover project s' = (.ok templates, t)) : Discovered project s templates := by
  obtain ⟨files, u, hfiles, h⟩ := exists_of_bind_ok h
  have hfiles := Task.wrapError_ok.1 hfiles
  have hanswer : (Store.listFiles project.sourceDir "*.md" s).1 = .ok files :=
    (answer_congr hs (.files project.sourceDir "*.md")).trans (congrArg (·.1) hfiles)
  have hu : SameContent s u := Trans.trans hs ((moves_listFiles _ _).arrives s' files u hfiles)
  refine ⟨files, hanswer, sorted_listFiles hsorted (Prod.ext hanswer rfl), ?_⟩
  have hread := forall₂_of_mapM (fun p => moves_readTemplate project.root p) h
  exact hread.imp fun p template ⟨v, w, huv, hp⟩ => readsAs_of_readTemplate (Trans.trans hu huv) hp

theorem of_onStore {ε α : Type} {task : Store.Task ε α} {s t : Session} {result : Except ε α}
    (h : Within.onStore task s = (result, t)) : task s.store = (result, t.store) :=
  Prod.ext (congrArg (·.1) h) (congrArg (·.2.store) h)

/-- The templates of a run are the templates of its store, put in order. -/
theorem exists_of_approachBy {order : List Template → List Template} {store : Store}
    (hsorted : store.Sorted) {found : Manifest × List Template} {s : Session}
    (h : approachBy order g (start store) = (.ok found, s)) :
    ∃ templates, Discovered g.project store templates ∧ found.2 = order templates := by
  obtain ⟨dir, s₁, hdir, h⟩ := exists_of_bind_ok h
  have hs₁ : SameContent store s₁.store :=
    (Task.moves_wrapError (moves_isDir _)).arrives _ _ _ (of_onStore hdir)
  cases dir with
  | false =>
    obtain ⟨_, _, hthrow, _⟩ := exists_of_bind_ok h
    cases hthrow
  | true =>
    obtain ⟨previous, s₂, hprevious, h⟩ := exists_of_bind_ok h
    have hs₂ : SameContent s₁.store s₂.store :=
      (Manifest.moves_load _).arrives _ _ _ (of_onStore hprevious)
    obtain ⟨templates, s₃, htemplates, h⟩ := exists_of_bind_ok h
    obtain ⟨_, s₄, _, h⟩ := exists_of_bind_ok h
    cases h
    exact ⟨templates, discovered_of_ok hsorted (Trans.trans hs₁ hs₂) (of_onStore htemplates), rfl⟩

end Generator
end AgentDocs
