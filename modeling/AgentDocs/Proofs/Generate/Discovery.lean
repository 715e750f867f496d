import AgentDocs.Proofs.Generate.Order
import AgentDocs.Proofs.Store.DepthFirst

/-! # Templates are discovered depth first

The templates in a directory are those of the files that a walk through the directory reaches, in the
order of the walk. It does not matter whether the store is in memory or on a disk. -/
namespace AgentDocs
open Effect Store Template

/-- What the template at a path is in a store with given texts. -/
def templateAt? (root : Path) (texts : Path → Option String) (p : Path) : Option Template :=
  (p.placed? root).bind fun source => (texts p).bind fun text =>
    (classify source text.toList).toOption

namespace Effect
variable {σ ε α β : Type}

theorem toOption_bind (x : Effect σ ε α) (f : α → Effect σ ε β) (s : σ) :
    ((x >>= f) s).1.toOption = (x s).1.toOption.bind fun a => (f a (x s).2).1.toOption := by
  rw [bind_apply]
  cases (x s).1 <;> rfl

/-- A loop whose steps read what stays the same answers as one that has no state. -/
theorem toOption_mapM {γ δ : Type} {R : σ → σ → Prop} [Trans R R R] {f : γ → Effect σ ε α}
    {g : δ → Option α} (hf : ∀ c, Moves R (f c)) {s t : σ} (hs : R s t) {cs : List γ} {ds : List δ}
    (h : List.Forall₂ (fun c d => ∀ u, R s u → (f c u).1.toOption = g d) cs ds) :
    (cs.mapM f t).1.toOption = ds.mapM g := by
  induction h generalizing t with
  | nil => rfl
  | @cons c d cs ds hstep _ ih =>
    have hmoved : R s (f c t).2 := Trans.trans hs (hf c t)
    rw [List.mapM_cons, List.mapM_cons, toOption_bind, hstep t hs]
    cases g d with
    | none => rfl
    | some a =>
      show ((cs.mapM f >>= fun rest => pure (a :: rest)) (f c t).2).1.toOption
        = (ds.mapM g).bind fun rest => some (a :: rest)
      rw [toOption_bind, ih hmoved]
      rfl

end Effect

namespace Generator

theorem isTemplate_congr (reserved : String) {p q : Path} (h : p.parts = q.parts) :
    isTemplate reserved p = isTemplate reserved q := by
  rw [isTemplate, isTemplate, Path.fileName?, Path.fileName?, h]

theorem placed?_congr (root : Path) {p q : Path} (h : p.parts = q.parts) :
    p.placed? root = q.placed? root := by
  rw [Path.placed?, Path.placed?, Path.normal_congr h]

/-- The names of markdown files. -/
def markdownNames : List Piece := [.anyText, .char '.', .char 'm', .char 'd']

theorem compile_markdown : compile "*.md" = .ok markdownNames := by
  simp [compile, pieces, piecesFrom]
  rfl

theorem toOption_readTemplate {root p : Path} {text : Option String} {t : Store}
    (htext : (Store.readText p t).1.toOption = text) : (readTemplate root p t).1.toOption
      = (p.placed? root).bind fun source => text.bind fun text =>
          (classify source text.toList).toOption := by
  unfold readTemplate
  cases p.placed? root with
  | none => rfl
  | some source =>
    have hwrapped : ((Store.readText p).wrapError GenerateError.ofStore t).1.toOption = text := by
      rw [← htext, Task.wrapError]
      cases Store.readText p t with
      | mk result u => cases result <;> rfl
    dsimp only
    rw [toOption_bind, hwrapped]
    rfl

/-- The templates in a directory are known from its forest and the texts of its files. -/
theorem toOption_discover {t : Store} {project : Project} {forest : Forest}
    (ht : t.Sorted) (hforest : forest.InByteOrder) (hbears : t.Bears project.sourceDir forest)
    {texts : Path → Option String} (htexts : ∀ p q, p.parts = q.parts →
      p ∈ walked project.sourceDir forest → (Store.readText q t).1.toOption = texts p) :
    (discover project t).1.toOption
      = (((walked project.sourceDir forest).filter (nameAdmitted markdownNames)).filter
          (isTemplate project.config.reservedFile)).mapM (templateAt? project.root texts) := by
  obtain ⟨files, hlist, hsame⟩ := exists_listFiles ht hforest hbears compile_markdown
  have hfiles : ((Store.listFiles project.sourceDir "*.md").wrapError GenerateError.ofStore) t
      = (.ok files, t) := Task.wrapError_ok.2 hlist
  rw [discover, bind_ok hfiles]
  refine toOption_mapM (moves_readTemplate project.root) (Std.Refl.refl t) ?_
  have hwalked : SameParts (files.filter (isTemplate project.config.reservedFile))
      (((walked project.sourceDir forest).filter (nameAdmitted markdownNames)).filter
        (isTemplate project.config.reservedFile)) := hsame.filter fun p q => isTemplate_congr _
  refine (((List.forall₂_and_left _ _).2 ⟨fun _ => id, hwalked.flip⟩).imp ?_).flip
  intro p q ⟨hp, hparts⟩ u hu
  have hread : (Store.readText q u).1.toOption = texts p := by
    rw [← readText_congr hu]
    exact htexts p q hparts.symm (List.mem_of_mem_filter (List.mem_of_mem_filter hp))
  rw [toOption_readTemplate hread, placed?_congr _ hparts, templateAt?]

/-- A directory of a tree has a forest, and every store with this forest, in memory or on a disk, lists
the files of its walk, in the order of the walk. Where the files have the same texts too, all these
stores give the same templates in the same order, or none, as a file is no template. -/
theorem discovered_depth_first {s : Store} {dir : Path} (hs : s.Sorted) (htree : s.IsTree dir)
    (hdir : (Store.isDir dir s).1 = .ok true) :
    ∃ forest : Forest, forest.InByteOrder ∧ s.Bears dir forest ∧
      ∀ t : Store, t.Sorted → t.Bears dir forest →
        (∀ pattern pieces, compile pattern = .ok pieces →
          ∃ files, Store.listFiles dir pattern t = (.ok files, t) ∧
            SameParts files ((walked dir forest).filter (nameAdmitted pieces))) ∧
        ∀ (project : Project) (texts : Path → Option String), project.sourceDir = dir →
          (∀ p q, p.parts = q.parts → p ∈ walked dir forest →
            (Store.readText q t).1.toOption = texts p) →
          (discover project t).1.toOption
            = (((walked dir forest).filter (nameAdmitted markdownNames)).filter
                (isTemplate project.config.reservedFile)).mapM (templateAt? project.root texts) := by
  obtain ⟨forest, hforest, hbears⟩ := exists_bears hs htree hdir
  refine ⟨forest, hforest, hbears, fun t ht htbears => ⟨fun pattern pieces => ?_, ?_⟩⟩
  · exact exists_listFiles ht hforest htbears
  · rintro project texts rfl htexts
    exact toOption_discover ht hforest htbears htexts

/-- A directory, and beside it a directory and a file whose names begin with its name: as texts their
paths are in another order. -/
def nearNames : Memory :=
  ((Memory.empty.put ⟨"/w/a.md"⟩ (.text "3")).put ⟨"/w/a-b/x.md"⟩ (.text "2")).put
    ⟨"/w/a/y.md"⟩ (.text "1")

theorem nearNames_depth_first :
    Store.Sorted (.memory nearNames) ∧ Store.IsTree ⟨"/w"⟩ (.memory nearNames) ∧
      (Store.isDir ⟨"/w"⟩ (.memory nearNames)).1 = .ok true ∧
      ∃ forest : Forest, forest.InByteOrder ∧ Store.Bears ⟨"/w"⟩ forest (.memory nearNames) ∧
        ∃ files, Store.listFiles ⟨"/w"⟩ "*.md" (.memory nearNames) = (.ok files, .memory nearNames) ∧
          files = [⟨"/w/a/y.md"⟩, ⟨"/w/a-b/x.md"⟩, ⟨"/w/a.md"⟩] ∧
          SameParts files ((walked ⟨"/w"⟩ forest).filter (nameAdmitted markdownNames)) := by
  have hsorted : Store.Sorted (.memory nearNames) :=
    Memory.sorted_put (Memory.sorted_put (Memory.sorted_put Memory.sorted_empty _ _) _ _) _ _
  have hclosed : nearNames.Closed :=
    ((Memory.closed_empty.put rfl _).put rfl _).put rfl _
  have hunmixed : nearNames.Unmixed := by
    intro p hp
    obtain ⟨q, hq, hparts⟩ := PathMap.has_iff_exists_mem.1 hp
    have hall : ∀ q ∈ PathMap.keys nearNames.files, nearNames.isDir q = false := by decide +kernel
    rw [← Memory.isDir_of_parts hparts, hall q hq]
  have hnamed : ∀ p, nearNames.Holds p → ∃ place : Place, p.parts = .root :: place.map .name := by
    intro p hp
    obtain ⟨q, hq, hparts⟩ := Memory.holds_iff_exists_mem.1 hp
    have hall : ∀ q ∈ PathMap.keys nearNames.files ++ PathMap.keys nearNames.dirs,
        q.parts = .root :: (q.parts.tail.map Part.text).map .name := by decide +kernel
    exact ⟨_, hparts.symm.trans (hall q hq)⟩
  have hisDir : nearNames.isDir ⟨"/w"⟩ = true := by decide +kernel
  have hdir : (Store.isDir ⟨"/w"⟩ (.memory nearNames)).1 = .ok true := congrArg Except.ok hisDir
  have htree : Store.IsTree ⟨"/w"⟩ (.memory nearNames) :=
    Memory.isTree_of_closed hclosed hunmixed hnamed hisDir
  obtain ⟨forest, hforest, hbears, hlisted⟩ := discovered_depth_first hsorted htree hdir
  obtain ⟨files, hfiles, hsame⟩ := (hlisted _ hsorted hbears).1 _ _ compile_markdown
  refine ⟨hsorted, htree, hdir, forest, hforest, hbears, files, hfiles, ?_, hsame⟩
  have hcomputed : (Store.listFiles ⟨"/w"⟩ "*.md" (.memory nearNames)).1.toOption
      = some [⟨"/w/a/y.md"⟩, ⟨"/w/a-b/x.md"⟩, ⟨"/w/a.md"⟩] := by decide +kernel
  rw [hfiles] at hcomputed
  exact Option.some.inj hcomputed

end Generator
end AgentDocs
