import AgentDocs.Generate.Run
import AgentDocs.Proofs.Effect
import AgentDocs.Proofs.Path.Normal

/-! # The paths that artifacts claim

However artifacts are collected, their paths are places below the root: names between slashes, at
least one, each path once and in order. Different paths are different places. -/
namespace AgentDocs
open Effect

/-- A text that stands for a place below a directory. -/
def IsBelow (entry : String) : Prop :=
  ∃ names, Path.AreNames names ∧ names ≠ [] ∧ entry = Path.slashed names

/-- The place that an entry stands for. -/
def placeOf (root : Path) (entry : String) : Path := (root.join ⟨entry⟩).normal

theorem IsBelow.parts_placeOf {entry : String} (h : IsBelow entry) (root : Path) :
    ∃ names, entry = Path.slashed names ∧ Path.AreNames names ∧
      (placeOf root entry).parts = root.normal.parts ++ names := by
  obtain ⟨names, hn, _, rfl⟩ := h
  exact ⟨names, rfl, hn, Path.parts_normal_join_slashed root hn⟩

theorem placeOf_injective {root : Path} {a b : String} (ha : IsBelow a) (hb : IsBelow b)
    (h : (placeOf root a).parts = (placeOf root b).parts) : a = b := by
  obtain ⟨as, rfl, _, hpa⟩ := ha.parts_placeOf root
  obtain ⟨bs, rfl, _, hpb⟩ := hb.parts_placeOf root
  rw [hpa, hpb, List.append_cancel_left_eq] at h
  rw [h]

theorem IsBelow.eq_of_parts {a b : String} (ha : IsBelow a) (hb : IsBelow b)
    (h : (Path.mk a).parts = (Path.mk b).parts) : a = b := by
  obtain ⟨as, has, _, rfl⟩ := ha
  obtain ⟨bs, hbs, _, rfl⟩ := hb
  rw [Path.parts_slashed has, Path.parts_slashed hbs] at h
  rw [h]

theorem IsBelow.isInside {entry : String} (h : IsBelow entry) : Manifest.isInside entry = true := by
  obtain ⟨names, hn, hne, rfl⟩ := h
  have hparts := Path.parts_normal_slashed hn
  have htext : Path.slashed names ≠ "" := by
    intro he
    rw [he] at hparts
    exact hne hparts.symm
  have hall : names.all Part.isName = true := List.all_eq_true.2 fun p hp => (hn p hp).1
  simp [Manifest.isInside, Path.isContained, hparts, htext, hne, hall]

namespace Artifacts

/-- What holds of artifacts that are collected for a root. -/
structure Collected (root : Path) (as : Artifacts) : Prop where
  root_eq : as.root = root.normal
  below : ∀ a ∈ as.items, IsBelow a.path
  sorted : (as.items.map (·.path)).Pairwise (· < ·)

theorem collected_empty (root : Path) : Collected root (empty root) where
  root_eq := rfl
  below := by simp [empty]
  sorted := .nil

theorem Collected.nodup {root : Path} {as : Artifacts} (h : Collected root as) :
    (as.items.map (·.path)).Nodup := by
  refine List.Pairwise.imp (fun {p q} hlt => ?_) h.sorted
  rintro rfl
  exact String.lt_irrefl _ hlt

theorem mem_place {a b : Artifact} {items : List Artifact} (h : b ∈ place a items) :
    b = a ∨ b ∈ items := by
  induction items with
  | nil => simpa [place] using h
  | cons c items ih =>
    simp only [place] at h
    split at h
    · simpa using h
    · split at h
      · exact (List.mem_cons.1 h).imp_right (List.mem_cons_of_mem _)
      · rcases List.mem_cons.1 h with rfl | h
        · exact .inr List.mem_cons_self
        · exact (ih h).imp_right (List.mem_cons_of_mem _)

theorem sorted_place (a : Artifact) {items : List Artifact}
    (h : (items.map (·.path)).Pairwise (· < ·)) :
    ((place a items).map (·.path)).Pairwise (· < ·) := by
  induction items with
  | nil => simp [place]
  | cons b items ih =>
    rw [List.map_cons] at h
    obtain ⟨hb, hitems⟩ := List.pairwise_cons.1 h
    simp only [place]
    split
    · rename_i hab
      refine List.pairwise_cons.2 ⟨fun p hp => ?_, h⟩
      rcases List.mem_cons.1 hp with rfl | hp
      · exact hab
      · exact String.lt_trans hab (hb p hp)
    split
    · rename_i heq
      rw [List.map_cons, heq]
      exact h
    · rename_i hlt hne
      refine List.pairwise_cons.2 ⟨fun p hp => ?_, ih hitems⟩
      obtain ⟨c, hc, rfl⟩ := List.mem_map.1 hp
      rcases mem_place hc with rfl | hc
      · exact Std.lt_of_le_of_ne (String.not_lt.1 hlt) (Ne.symm hne)
      · exact hb _ (List.mem_map_of_mem hc)

/-- A path for a target is the names that lead from the root to it. -/
theorem exists_names_of_relative? {root target : Path} {path : String}
    (h : relative? root target = some path) :
    ∃ names, Path.AreNames names ∧ names ≠ [] ∧ path = Path.slashed names ∧
      (root.join target).normal.parts = root.parts ++ names := by
  obtain ⟨names, hbelow, hpath⟩ := Option.bind_eq_some_iff.1 h
  have hparts := Path.parts_of_below? hbelow
  split at hpath
  · rename_i hcontained
    cases hpath
    simp only [Path.isContained, Bool.and_eq_true, List.all_eq_true] at hcontained
    refine ⟨names, fun p hp => ⟨hcontained.2 p hp, ?_⟩, by simpa using hcontained.1, rfl, hparts⟩
    exact Path.proper_of_mem_parts (hparts ▸ List.mem_append_right _ hp)
  · cases hpath

theorem isBelow_of_relative? {root target : Path} {path : String}
    (h : relative? root target = some path) : IsBelow path := by
  obtain ⟨names, hnames, hne, rfl, -⟩ := exists_names_of_relative? h
  exact ⟨names, hnames, hne, rfl⟩

/-- A claim that succeeds is for a path inside that no other template has. -/
theorem exists_of_insert {as bs : Artifacts} {origin : String} {target : Path} {content : String}
    (h : as.insert origin target content = .ok bs) :
    ∃ path, relative? as.root target = some path ∧
      (∀ a, as.find? path = some a → a.origin = origin) ∧
      bs = { as with items := place ⟨path, finished content, origin⟩ as.items } := by
  unfold insert at h
  split at h
  · cases h
  · rename_i path hpath
    dsimp only at h
    split at h
    · rename_i other hother
      split at h
      · rename_i horigin
        cases h
        refine ⟨path, hpath, fun a ha => ?_, rfl⟩
        rw [hother] at ha
        rwa [← Option.some.inj ha]
      · cases h
    · rename_i hnone
      cases h
      exact ⟨path, hpath, fun a ha => absurd ha (by simp [hnone]), rfl⟩

theorem Collected.insert {root : Path} {as bs : Artifacts} (h : Collected root as)
    {origin : String} {target : Path} {content : String}
    (hi : as.insert origin target content = .ok bs) : Collected root bs := by
  obtain ⟨path, hpath, _, rfl⟩ := exists_of_insert hi
  refine ⟨h.root_eq, fun a ha => ?_, sorted_place _ h.sorted⟩
  rcases mem_place ha with rfl | ha
  · exact isBelow_of_relative? hpath
  · exact h.below a ha

end Artifacts

/-! ## Collecting -/

namespace Generator
open Artifacts

variable {root : Path}

theorem yields_insert {as : Artifacts} (h : Collected root as) (origin : String) (target : Path)
    (content : String) : Yields (Collected root) (orFail (as.insert origin target content)) :=
  yields_mk fun _ hi => h.insert hi

theorem yields_addOutput (origin : String) {done : Progress} (h : Collected root done.artifacts)
    (output : Template.Output) :
    Yields (fun done => Collected root done.artifacts) (addOutput origin done output) :=
  yields_bind fun _ => (yields_insert h _ _ _).bind fun _ has => yields_pure has

theorem yields_expandDirectives (g : Generator) (renderer : Renderer) (t : Template)
    (spec : Template.Spec) (parameters : Parameters) {done : Progress}
    (h : Collected root done.artifacts) :
    Yields (fun done => Collected root done.artifacts)
      (expandDirectives g renderer t spec parameters done) :=
  yields_bind fun _ => yields_bind fun _ => yields_bind fun _ => yields_bind fun _ =>
    yields_foldlM (fun _ output hdone => yields_addOutput _ hdone output) h _

theorem yields_expandHeaders (g : Generator) (renderer : Renderer) (t : Template)
    (headers : List Markup.Header) (parameters : Parameters) {done : Progress}
    (h : Collected root done.artifacts) :
    Yields (fun done => Collected root done.artifacts)
      (expandHeaders g renderer t headers parameters done) := by
  refine yields_bind fun targets => yields_bind fun commands => yields_bind fun body => ?_
  refine Yields.bind (yields_foldlM (fun as file has => ?_) h _) fun artifacts has =>
    yields_pure has
  exact yields_insert has _ _ _

theorem yields_expand (g : Generator) (renderer : Renderer) (overrides : Parameters)
    {done : Progress} (h : Collected root done.artifacts) (t : Template) :
    Yields (fun done => Collected root done.artifacts) (expand g renderer overrides done t) := by
  refine yields_bind fun parameters => ?_
  split
  · exact yields_expandDirectives g renderer t _ _ h
  · exact yields_expandHeaders g renderer t _ _ h

theorem yields_addImported {artifacts : Artifacts} (h : Collected root artifacts) :
    Yields (Collected root) (addImported artifacts) :=
  yields_bind fun _ => yields_foldlM (fun _ _ has => yields_insert has _ _ _) h _

theorem yields_collectArtifacts (g : Generator) :
    Yields (Collected g.project.root) (collectArtifacts g) := by
  refine yields_bind fun templates => yields_bind fun _ => ?_
  refine Yields.bind (yields_foldlM (fun done t hdone => yields_expand g _ _ hdone t)
    (collected_empty g.project.root) _) fun done hdone => ?_
  exact yields_bind fun _ => yields_addImported hdone

end Generator
end AgentDocs
