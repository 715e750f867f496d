import AgentDocs.Command.Builtin
import AgentDocs.Proofs.Generate.Targets
import AgentDocs.Proofs.Path.NormalForm

/-! # References from the root

A reference with one slash in front is read from within the root directory, as targets and example
files are. Of several slashes one is taken away, and what is left is a path from the root of the file
system: the two ways to read it meet only where the reference leads out of all directories around the
root. -/
namespace AgentDocs

namespace Path

/-- How many directories a path leads out. -/
def outs (p : Path) : Nat := (p.normal.parts.takeWhile (· == .up)).length

/-- Going out ends at the root. -/
theorem foldl_fold_outs {names : List Part} (h : ∀ q ∈ names, q.isName = true) (count : Nat) :
    (List.replicate count Part.up).foldl fold (names ++ [.root]) = names.drop count ++ [.root] := by
  induction count generalizing names with
  | zero => rfl
  | succ count ih =>
    rw [List.replicate_succ, List.foldl_cons]
    cases names with
    | nil =>
      have hnil := @ih [] fun q hq => nomatch hq
      simpa [fold] using hnil
    | cons q names =>
      obtain ⟨hq, hnames⟩ := List.forall_mem_cons.1 h
      cases q with
      | name text => exact ih hnames
      | _ => simp [Part.isName] at hq

theorem outs_eq {p : Path} {count : Nat} {names : List Part} (h : ∀ q ∈ names, q.isName = true)
    (hp : p.normal.parts = List.replicate count .up ++ names) : p.outs = count := by
  have hnames : names.takeWhile (· == .up) = [] := by
    cases names with
    | nil => rfl
    | cons q names =>
      have hq := h q List.mem_cons_self
      cases q <;> simp_all [Part.isName]
  rw [outs, hp, List.takeWhile_append_of_pos, hnames, List.append_nil, List.length_replicate]
  intro q hq
  rw [List.eq_of_mem_replicate hq]
  rfl

/-- Read from within a directory a path goes on from what going out leaves of the directory. -/
theorem exists_names_of_join {p : Path} (hp : p.isAbsolute = false) :
    ∃ names, ∀ {base : Path} {above : List Part}, base.normal.parts = .root :: above →
      (base.join p).normal.parts = .root :: (above.take (above.length - p.outs) ++ names) := by
  obtain ⟨count, names, hparts, hnames⟩ := (isWay_normal hp).exists_replicate
  refine ⟨names, fun {base above} hbase => ?_⟩
  obtain ⟨kept, hkept, hkeptParts⟩ := exists_names_of_isAbsolute (normal_normal base)
    (isAbsolute_iff.2 ⟨above, hbase⟩)
  obtain rfl : kept = above := (List.cons.inj (hkeptParts.symm.trans hbase)).2
  have habove : ∀ q ∈ kept, q.isName = true := fun q hq => (hkept q hq).1
  have hbelow : p.normal.isAbsolute = false := by rw [isAbsolute_normal_eq, hp]
  rw [normal_join hp, parts_normal, normalParts_join hbelow, hbase, hparts, outs_eq hnames hparts]
  -- the names of the directory are taken first, so that its last one goes out first
  have hfold : (List.replicate count Part.up).foldl fold ((Part.root :: kept).foldl fold [])
      = (kept.take (kept.length - count)).reverse ++ [.root] := by
    have htaken : (Part.root :: kept).foldl fold [] = kept.reverse ++ [.root] :=
      foldl_fold_names habove
    rw [htaken, foldl_fold_outs (fun q hq => habove q (List.mem_reverse.1 hq)), List.drop_reverse]
  rw [normalParts, List.foldl_append, List.foldl_append, hfold, foldl_fold_names hnames]
  simp

end Path

namespace Scope
open Text
variable {s : Scope} {reference : String}

/-! ## One slash and several -/

/-- One slash stands for the root directory. -/
theorem resolve_of_one_slash (h : (Path.mk reference).isAbsolute = true)
    (hone : ¬ ['/', '/'] <+: reference.toList) : s.resolve reference = s.root.within reference := by
  obtain ⟨rest, hrest⟩ := List.head?_eq_some_iff.1 (beq_iff_eq.1 h)
  have hhead : rest.dropWhile (· == '/') = rest := by
    cases rest with
    | nil => rfl
    | cons c rest =>
      refine List.dropWhile_cons_of_neg fun hc => hone ?_
      rw [hrest, beq_iff_eq.1 hc]
      exact ⟨rest, rfl⟩
  have hdrop : dropSlashes reference = String.ofList rest := by
    rw [dropSlashes, onChars, hrest, List.dropWhile_cons_of_pos rfl, hhead]
  simp only [resolve, hrest, Path.within, hdrop]

/-- What follows the first of several slashes is a path from the root of the file system. -/
theorem resolve_of_slashes (h : ['/', '/'] <+: reference.toList) :
    s.resolve reference = (Path.mk "/").within reference := by
  obtain ⟨rest, hrest⟩ := h
  have hjoin : s.root.join ⟨String.ofList ('/' :: rest)⟩ = ⟨String.ofList ('/' :: rest)⟩ := by
    simp [Path.join, Path.isAbsolute]
  have hresolve : s.resolve reference = (Path.mk (String.ofList ('/' :: rest))).normal := by
    simp only [resolve, ← hrest, List.cons_append, List.nil_append, hjoin]
  have hroot : (Path.mk "/").parts = [.root] := by decide
  rw [hresolve]
  refine Path.eq_of_normal (Path.normal_normal _) (Path.normal_normal _) ?_
  rw [Path.parts_within, ← hrest, hroot, Path.parts_normal, Path.parts, String.toList_ofList,
    Path.partsOf_slash]
  simp only [List.cons_append, List.nil_append, Path.inner_cons_slash]

/-- The two readings of several slashes meet where nothing of the root directory is left. -/
theorem within_eq_iff (hroot : s.root.isAbsolute = true) :
    (Path.mk "/").within reference = s.root.within reference ↔
      s.root.normal.parts.length ≤ (Path.mk (dropSlashes reference)).outs + 1 := by
  obtain ⟨names, hjoin⟩ := Path.exists_names_of_join (Path.isAbsolute_dropSlashes reference)
  obtain ⟨above, habove⟩ := Path.isAbsolute_iff.1 (Path.isAbsolute_normal hroot)
  have hslash : (Path.mk "/").normal.parts = [.root] := by decide
  have hleft := hjoin hslash
  have hright := hjoin habove
  rw [← Path.within] at hleft hright
  rw [List.take_nil, List.nil_append] at hleft
  constructor
  · intro heq
    have hparts := congrArg Path.parts heq
    rw [hleft, hright, List.cons.injEq] at hparts
    have hnil := List.self_eq_append_left.1 hparts.2
    rw [List.take_eq_nil_iff] at hnil
    rw [habove, List.length_cons]
    rcases hnil with hnil | rfl
    · omega
    · exact Nat.succ_le_succ (Nat.zero_le _)
  · intro hle
    refine Path.eq_of_normal (Path.normal_normal _) (Path.normal_normal _) ?_
    rw [habove, List.length_cons] at hle
    have hzero : above.length - (Path.mk (dropSlashes reference)).outs = 0 := by omega
    rw [hleft, hright, hzero, List.take_zero, List.nil_append]

end Scope

/-! ## What reads references -/

/-- The action with which a script begins. -/
def Script.first? {ε α : Type} : Script ε α → Option Action
  | act action _ => some action
  | _ => none

/-- A reference stands for a path, and the commands for files begin with it. -/
structure ReadsFile (s : Scope) (reference : String) (path : Path) : Prop where
  resolved : s.resolve reference = path
  included : (Command.includeFile.invoke s [reference]).first?
    = some (.ask (.exists? path (some .file)))
  includedOnce : (Command.includeOnce.invoke s [reference]).first?
    = some (.ask (.exists? path (some .file)))
  imported : (Command.importFile.invoke s [reference]).first? = some (.importFile s.template path)

theorem readsFile_iff {s : Scope} {reference : String} {path : Path} :
    ReadsFile s reference path ↔ s.resolve reference = path := by
  refine ⟨ReadsFile.resolved, ?_⟩
  rintro rfl
  exact ⟨rfl, rfl, rfl, rfl⟩

/-- An example is made from a file that is there. -/
theorem Template.isFile_of_fileExample {root : Path} {entry : Template.ExampleEntry}
    {reference text : String} {store after : Store}
    (h : Template.fileExample root entry reference store = (.ok text, after)) :
    (Store.isFile (root.within reference) store).1 = .ok true := by
  obtain ⟨found, t, hfound, h⟩ := Effect.exists_of_bind_ok h
  rw [Store.Task.wrapError_ok] at hfound
  cases found with
  | true => rw [hfound]
  | false => cases h

/-- With one slash in front the commands for files read a reference as targets and example files do,
from within the root directory. With several they read it from the root of the file system, which is
another file unless the reference leads out of all that is around the root directory. -/
theorem Scope.rooted_references (s : Scope) (reference : String)
    (hroot : s.root.isAbsolute = true) (h : (Path.mk reference).isAbsolute = true) :
    (¬ ['/', '/'] <+: reference.toList → ReadsFile s reference (s.root.within reference)) ∧
    (['/', '/'] <+: reference.toList → ReadsFile s reference ((Path.mk "/").within reference)) ∧
    (ReadsFile s reference (s.root.within reference) ↔ ¬ ['/', '/'] <+: reference.toList ∨
      s.root.normal.parts.length ≤ (Path.mk (Text.dropSlashes reference)).outs + 1) ∧
    ('*' ∉ reference.toList →
      Template.targetsOf s.root reference = pure [s.root.within reference]) ∧
    ∀ (entry : Template.ExampleEntry) (store after : Store) (text : String),
      Template.fileExample s.root entry reference store = (.ok text, after) →
      (Store.isFile (s.root.within reference) store).1 = .ok true := by
  simp only [readsFile_iff]
  refine ⟨Scope.resolve_of_one_slash h, Scope.resolve_of_slashes, ?_, Template.targetsOf_literal,
    fun _ _ _ _ => Template.isFile_of_fileExample⟩
  by_cases hslashes : ['/', '/'] <+: reference.toList
  · rw [Scope.resolve_of_slashes hslashes, Scope.within_eq_iff hroot]
    simp [hslashes]
  · simp [Scope.resolve_of_one_slash h hslashes, hslashes]

/-- A scope in the root directory `/work`. -/
def inWork : Scope :=
  ⟨⟨⟨⟨"/work/a.md"⟩, "a.md"⟩, [], none, true⟩, ⟨"/work"⟩, ⟨"/work"⟩, ⟨"/work"⟩⟩

/-- One slash, two slashes, and two slashes in front of a way out. -/
theorem Scope.references_inWork :
    ReadsFile inWork "/./part.md" ⟨"/work/part.md"⟩ ∧ ReadsFile inWork "//part.md" ⟨"/part.md"⟩ ∧
      ReadsFile inWork "//../part.md" (inWork.root.within "//../part.md") := by
  have hone := (rooted_references inWork "/./part.md" (by decide) (by decide)).1 (by decide)
  have htwo := (rooted_references inWork "//part.md" (by decide) (by decide)).2.1 (by decide)
  exact ⟨hone, htwo,
    (rooted_references inWork "//../part.md" (by decide) (by decide)).2.2.1.2 (.inr (by decide))⟩

/-- Two slashes leave the root directory. -/
theorem Scope.two_slashes_leave_root :
    inWork.root.normal = inWork.root ∧ inWork.root.isAbsolute = true ∧
      (Path.mk "//part.md").isAbsolute = true ∧ inWork.resolve "//part.md" = ⟨"/part.md"⟩ ∧
      inWork.root.within "//part.md" = ⟨"/work/part.md"⟩ := by
  decide

end AgentDocs
