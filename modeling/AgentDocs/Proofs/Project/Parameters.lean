import AgentDocs.Proofs.Path.Outward
import AgentDocs.Proofs.Store.Content
import AgentDocs.Project.Basic

/-! # Where parameters come from

The files for parameters are those in the directories from the source directory down to that of a
template. Deeper files count more, and what the caller gives counts most. Nothing else counts: a
fault of one of these files is the only way to fail, and no other file is looked at. -/
namespace AgentDocs
open Effect Store

namespace Parameters

/-! ## Maps of parameters -/

/-- The value that entries give a name; of two for one name the later counts. -/
def lastOf (name : String) (entries : List (String × String)) : Option String :=
  (entries.reverse.find? (·.1 == name)).map (·.2)

theorem lastOf_concat (name : String) (entries : List (String × String)) (e : String × String) :
    lastOf name (entries ++ [e]) = if e.1 = name then some e.2 else lastOf name entries := by
  rw [lastOf, List.reverse_append, List.reverse_singleton, List.singleton_append, List.find?_cons]
  split
  · rename_i h
    rw [if_pos (beq_iff_eq.1 h), Option.map_some]
  · rename_i h
    rw [if_neg (beq_eq_false_iff_ne.1 h), lastOf]

theorem get?_insertMember (name key value : String) (ps : Parameters) :
    get? name (Json.insertMember key value ps)
      = if key = name then some value else get? name ps := by
  induction ps with
  | nil => by_cases h : key = name <;> simp [Json.insertMember, get?, h]
  | cons p ps ih =>
    obtain ⟨k, v⟩ := p
    rw [Json.insertMember]
    split
    · by_cases h : key = name <;> simp [get?, h]
    split
    · rename_i hk
      subst hk
      by_cases h : key = name <;> simp [get?, h]
    · rename_i hk
      rw [get?] at ih ⊢
      by_cases h : k = name
      · have hne : key ≠ name := fun he => hk (he.trans h.symm)
        simp [get?, h, hne]
      · simp [get?, h, ih]

/-- New parameters count more than those there were. -/
theorem get?_update (name : String) (ps new : Parameters) :
    get? name (ps.update new) = (lastOf name new).or (get? name ps) := by
  induction new using List.reverseRecOn with
  | nil => rfl
  | append_singleton new e ih =>
    rw [update, List.foldl_append, List.foldl_cons, List.foldl_nil, ← update, get?_insertMember, ih,
      lastOf_concat]
    by_cases h : e.1 = name <;> simp [h]

/-- Whether the names are in order, each there once. -/
def Ordered (ps : Parameters) : Prop := ps.Pairwise fun a b => a.1 < b.1

theorem mem_insertMember {key value : String} {ps : Parameters} {e : String × String}
    (h : e ∈ Json.insertMember key value ps) : e = (key, value) ∨ e ∈ ps := by
  induction ps with
  | nil => exact .inl (List.mem_singleton.1 h)
  | cons p ps ih =>
    rw [Json.insertMember] at h
    split at h
    · exact List.mem_cons.1 h
    split at h
    · exact (List.mem_cons.1 h).imp_right (List.mem_cons_of_mem _)
    · rcases List.mem_cons.1 h with rfl | h
      · exact .inr List.mem_cons_self
      · exact (ih h).imp_right (List.mem_cons_of_mem _)

theorem Ordered.insertMember {ps : Parameters} (h : Ordered ps) (key value : String) :
    Ordered (Json.insertMember key value ps) := by
  induction ps with
  | nil => exact List.pairwise_singleton _ _
  | cons p ps ih =>
    obtain ⟨k, v⟩ := p
    obtain ⟨hfirst, hrest⟩ := List.pairwise_cons.1 h
    rw [Json.insertMember]
    split
    · rename_i hless
      refine List.pairwise_cons.2 ⟨fun x hx => ?_, h⟩
      rcases List.mem_cons.1 hx with rfl | hx
      · exact hless
      · exact String.lt_trans hless (hfirst x hx)
    split
    · rename_i heq
      subst heq
      exact List.pairwise_cons.2 ⟨hfirst, hrest⟩
    · rename_i hless hne
      refine List.pairwise_cons.2 ⟨fun x hx => ?_, ih hrest⟩
      rcases mem_insertMember hx with rfl | hx
      · exact Std.lt_of_le_of_ne (String.not_lt.1 hless) (Ne.symm hne)
      · exact hfirst x hx

theorem Ordered.update {ps : Parameters} (h : Ordered ps) (new : Parameters) :
    Ordered (ps.update new) := by
  induction new using List.reverseRecOn with
  | nil => exact h
  | append_singleton new e ih =>
    rw [Parameters.update, List.foldl_append]
    exact ih.insertMember e.1 e.2

theorem Ordered.lastOf_eq {ps : Parameters} (h : Ordered ps) (name : String) :
    lastOf name ps = get? name ps := by
  induction ps using List.reverseRecOn with
  | nil => rfl
  | append_singleton ps e ih =>
    obtain ⟨hps, -, hlast⟩ := List.pairwise_append.1 h
    rw [lastOf_concat, ih hps, get?, get?, List.find?_append]
    by_cases he : e.1 = name
    · have hnone : ps.find? (·.1 == name) = none := by
        refine List.find?_eq_none.2 fun x hx hname => ?_
        have hless := hlast x hx e List.mem_cons_self
        rw [beq_iff_eq.1 hname, he] at hless
        exact String.lt_irrefl name hless
      simp [hnone, he]
    · simp [he]

/-- What entries give is what they give as a map. -/
theorem lastOf_ofList (name : String) (entries : List (String × String)) :
    lastOf name (ofList entries) = lastOf name entries := by
  have hordered : Ordered (ofList entries) := @Ordered.update [] List.Pairwise.nil entries
  rw [hordered.lastOf_eq]
  exact (get?_update name [] entries).trans (Option.or_none)

/-! ## One file -/

/-- The members of an object that gives every name a text. -/
def members (entries : List (String × String)) : List (String × Json) :=
  entries.map fun (name, value) => (name, .string value)

theorem ofMembers?_eq_some_iff {ms : List (String × Json)} {entries : List (String × String)} :
    ofMembers? ms = some entries ↔ ms = members entries := by
  fun_induction ofMembers? ms generalizing entries with
  | case1 => cases entries <;> simp [members]
  | case2 name value rest ih =>
    rw [Option.map_eq_some_iff]
    constructor
    · rintro ⟨others, hothers, rfl⟩
      rw [ih.1 hothers]
      rfl
    · intro h
      cases entries with
      | nil => cases h
      | cons e others =>
        obtain ⟨hfirst, hothers⟩ := List.cons.inj h
        cases hfirst
        exact ⟨others, ih.2 hothers, rfl⟩
  | case3 ms hnil hcons =>
    refine ⟨nofun, fun h => ?_⟩
    cases entries with
    | nil => exact absurd h hnil
    | cons e others => exact absurd h (hcons e.1 e.2 (members others))

/-- What the file for parameters at a path gives: nothing if there is none, or else the texts that
its object gives to names. -/
inductive FileGives (s : Store) (p : Path) : List (String × String) → Prop
  | absent (hfile : (isFile p s).1 = .ok false) : FileGives s p []
  | object {text : String} {entries : List (String × String)} (hfile : (isFile p s).1 = .ok true)
    (htext : (readText p s).1 = .ok text)
    (hobject : Json.readRaw? text = some (.object (members entries))) : FileGives s p entries

/-- What can be wrong with the file for parameters at a path: it cannot be told whether it is there,
it cannot be read, or it is no object of texts. -/
inductive FileFault (s : Store) (p : Path) : Prop
  | unknown {e : Error} (hfile : (isFile p s).1 = .error e)
  | unreadable {e : Error} (hfile : (isFile p s).1 = .ok true) (htext : (readText p s).1 = .error e)
  | malformed {text : String} (hfile : (isFile p s).1 = .ok true)
    (htext : (readText p s).1 = .ok text)
    (hobject : ∀ entries, Json.readRaw? text ≠ some (.object (members entries)))

theorem FileGives.not_fault {s : Store} {p : Path} {entries : List (String × String)}
    (h : FileGives s p entries) : ¬FileFault s p := by
  intro hfault
  cases h with
  | absent hfile => rcases hfault with hother | ⟨hother, _⟩ | ⟨hother, _, _⟩ <;>
      cases hfile.symm.trans hother
  | object hfile htext hobject =>
    rcases hfault with hother | ⟨_, hunread⟩ | ⟨_, hread, hno⟩
    · cases hfile.symm.trans hother
    · cases htext.symm.trans hunread
    · cases htext.symm.trans hread
      exact hno _ hobject

theorem ofText?_eq_some_iff {text : String} {ps : Parameters} :
    ofText? text = some ps ↔
      ∃ entries, Json.readRaw? text = some (.object (members entries)) ∧ ofList entries = ps := by
  unfold ofText?
  cases Json.readRaw? text with
  | none => simp
  | some v =>
    cases v with
    | object ms => simp [Option.bind_eq_some_iff, ofMembers?_eq_some_iff]
    | _ => simp

/-- A file is read, or it has a fault. -/
theorem readFile_cases (p : Path) (s : Store) :
    (∃ entries, FileGives s p entries ∧ (readFile p s).1 = .ok (ofList entries)) ∨
      FileFault s p ∧ ∃ e, (readFile p s).1 = .error e := by
  have hstate : (isFile p s).2 = s := by cases s <;> rfl
  cases hfile : (isFile p s).1 with
  | error e =>
    have hask : (isFile p).wrapError GenerateError.ofStore s = (.error (.ofStore e), s) :=
      Prod.ext (congrArg (Except.mapError GenerateError.ofStore) hfile) hstate
    exact .inr ⟨.unknown hfile, .ofStore e, by rw [readFile, bind_error hask]⟩
  | ok found =>
    have hask : (isFile p).wrapError GenerateError.ofStore s = (.ok found, s) :=
      Prod.ext (congrArg (Except.mapError GenerateError.ofStore) hfile) hstate
    rw [readFile, bind_ok hask]
    cases found with
    | false => exact .inl ⟨[], .absent hfile, rfl⟩
    | true =>
      rw [if_pos rfl]
      cases htext : (readText p s).1 with
      | error e =>
        have hread : (readText p).wrapError GenerateError.ofStore s
            = (.error (.ofStore e), (readText p s).2) :=
          Prod.ext (congrArg (Except.mapError GenerateError.ofStore) htext) rfl
        exact .inr ⟨.unreadable hfile htext, .ofStore e, by rw [bind_error hread]⟩
      | ok text =>
        have hread : (readText p).wrapError GenerateError.ofStore s
            = (.ok text, (readText p s).2) :=
          Prod.ext (congrArg (Except.mapError GenerateError.ofStore) htext) rfl
        rw [bind_ok hread]
        cases hps : ofText? text with
        | some ps =>
          obtain ⟨entries, hobject, rfl⟩ := ofText?_eq_some_iff.1 hps
          exact .inl ⟨entries, .object hfile htext hobject, rfl⟩
        | none =>
          refine .inr ⟨.malformed hfile htext fun entries hobject => ?_, _, rfl⟩
          cases hps.symm.trans (ofText?_eq_some_iff.2 ⟨entries, hobject, rfl⟩)

/-! ## What counts of a store -/

theorem moves_readFile (path : Path) : Moves SameContent (readFile path) := by
  refine (Task.moves_wrapError (moves_isFile path)).bind fun found => ?_
  split
  · refine (Task.moves_wrapError (moves_readText path)).bind fun text => ?_
    split
    · exact moves_pure _
    · exact moves_throw _
  · exact moves_pure _

theorem moves_load (sourceDir dir : Path) (overrides : Parameters) :
    Moves SameContent (load sourceDir dir overrides) := by
  refine Moves.bind (moves_foldlM (fun ps d => ?_) [] _) fun found => moves_pure _
  exact (moves_readFile _).bind fun _ => moves_pure _

/-- What is asked of a store for a file is all that counts for its parameters. -/
theorem mirrors_readFile {R : Store → Store → Prop} {p : Path}
    (hfile : Mirrors R (isFile p) (isFile p)) (htext : Mirrors R (readText p) (readText p)) :
    Mirrors R (readFile p) (readFile p) := by
  refine (Task.mirrors_wrapError _ hfile).bind fun found => ?_
  split
  · refine (Task.mirrors_wrapError _ htext).bind fun text => ?_
    split
    · exact mirrors_pure _
    · exact mirrors_throw _
  · exact mirrors_pure _

theorem mirrors_load {R : Store → Store → Prop} {sourceDir dir : Path} (overrides : Parameters)
    (hfiles : ∀ d ∈ chain sourceDir dir,
      Mirrors R (readFile (d.child fileName)) (readFile (d.child fileName))) :
    Mirrors R (load sourceDir dir overrides) (load sourceDir dir overrides) := by
  refine Mirrors.bind (mirrors_foldlM (fun ps d hd => ?_) []) fun found => mirrors_pure _
  exact (hfiles d hd).bind fun _ => mirrors_pure _

theorem readFile_congr {s t : Store} (h : SameContent s t) (p : Path) :
    (readFile p s).1 = (readFile p t).1 := by
  have hsame : SameOn (p = ·) s t := fun q _ => h.sameAt q
  exact (mirrors_readFile (mirrors_isFile_same rfl) (mirrors_readText_same rfl) s t hsame).1

/-! ## All files -/

/-- Puts the parameters of files in directories over others, one after the other. -/
def layered (ps : Parameters) (dirs : List Path) : Store.Task GenerateError Parameters :=
  dirs.foldlM (fun ps d => return ps.update (← readFile (d.child fileName))) ps

theorem load_eq (sourceDir dir : Path) (overrides : Parameters) :
    load sourceDir dir overrides
      = (return (← layered [] (chain sourceDir dir)).update overrides) := rfl

/-- All files are read, and the deeper ones put over the others, or one of them has a fault. -/
theorem layered_cases {s u : Store} (h : SameContent s u) (ps : Parameters) (dirs : List Path) :
    (∃ files, List.Forall₂ (fun d => FileGives s (d.child fileName)) dirs files ∧
      (layered ps dirs u).1 = .ok (files.foldl (fun ps entries => ps.update (ofList entries)) ps)) ∨
    (∃ d ∈ dirs, FileFault s (d.child fileName)) ∧ ∃ e, (layered ps dirs u).1 = .error e := by
  induction dirs generalizing ps u with
  | nil => exact .inl ⟨[], .nil, rfl⟩
  | cons d dirs ih =>
    have hcongr := readFile_congr h (d.child fileName)
    have hcons : layered ps (d :: dirs)
        = readFile (d.child fileName) >>= fun file => layered (ps.update file) dirs := by
      rw [layered, List.foldlM_cons, bind_assoc]
      rfl
    rw [hcons]
    rcases readFile_cases (d.child fileName) s with ⟨entries, hgives, hread⟩ | ⟨hfault, e, hread⟩
    · have hu : readFile (d.child fileName) u
          = (.ok (ofList entries), (readFile (d.child fileName) u).2) :=
        Prod.ext (hcongr.symm.trans hread) rfl
      rw [bind_ok hu]
      obtain ⟨files, hfiles, hlayered⟩ | ⟨⟨d', hd', hfault⟩, herror⟩ :=
        ih (Trans.trans h (moves_readFile _ u)) (ps.update (ofList entries))
      · exact .inl ⟨entries :: files, .cons hgives hfiles, hlayered⟩
      · exact .inr ⟨⟨d', List.mem_cons_of_mem _ hd', hfault⟩, herror⟩
    · have hu : readFile (d.child fileName) u = (.error e, (readFile (d.child fileName) u).2) :=
        Prod.ext (hcongr.symm.trans hread) rfl
      exact .inr ⟨⟨d, List.mem_cons_self, hfault⟩, e, by rw [bind_error hu]⟩

theorem get?_foldl_update (name : String) (files : List (List (String × String)))
    (ps : Parameters) :
    get? name (files.foldl (fun ps entries => ps.update (ofList entries)) ps)
      = (files.reverse.findSome? (lastOf name)).or (get? name ps) := by
  induction files generalizing ps with
  | nil => rfl
  | cons entries files ih =>
    rw [List.foldl_cons, ih, get?_update, lastOf_ofList, List.reverse_cons, List.findSome?_append,
      Option.or_assoc]
    simp

/-- The parameters of all files, those that the caller gives put over them, or a fault. -/
theorem load_cases (sourceDir dir : Path) (overrides : Parameters) (s : Store) :
    (∃ files, List.Forall₂ (fun d => FileGives s (d.child fileName)) (chain sourceDir dir) files ∧
      ∃ ps, (load sourceDir dir overrides s).1 = .ok ps ∧ ∀ name,
        get? name ps = (lastOf name overrides).or (files.reverse.findSome? (lastOf name))) ∨
    (∃ d ∈ chain sourceDir dir, FileFault s (d.child fileName)) ∧
      ∃ e, (load sourceDir dir overrides s).1 = .error e := by
  rw [load_eq]
  obtain ⟨files, hfiles, hlayered⟩ | ⟨hfault, e, hlayered⟩ :=
    layered_cases (Std.Refl.refl s) [] (chain sourceDir dir)
  · have hrun : layered [] (chain sourceDir dir) s = (.ok _, (layered [] _ s).2) :=
      Prod.ext hlayered rfl
    rw [bind_ok hrun]
    refine .inl ⟨files, hfiles, _, rfl, fun name => ?_⟩
    rw [get?_update, get?_foldl_update]
    exact congrArg _ Option.or_none
  · have hrun : layered [] (chain sourceDir dir) s = (.error e, (layered [] _ s).2) :=
      Prod.ext hlayered rfl
    rw [bind_error hrun]
    exact .inr ⟨hfault, e, rfl⟩

/-- The directories that count are those from the source directory down, and nothing counts but what
stands at the files in them. -/
theorem load_of_below {sourceDir dir : Path} {below : List Part}
    (hbelow : dir.below? sourceDir = some below) (habsolute : dir.isAbsolute = sourceDir.isAbsolute)
    (overrides : Parameters) (s : Store) :
    (chain sourceDir dir).map Path.parts = below.inits.map (sourceDir.parts ++ ·) ∧
    (∀ ps, (load sourceDir dir overrides s).1 = .ok ps →
      ∃ files, List.Forall₂ (fun d => FileGives s (d.child fileName)) (chain sourceDir dir) files ∧
        ∀ name, get? name ps
          = (lastOf name overrides).or (files.reverse.findSome? (lastOf name))) ∧
    ((∃ e, (load sourceDir dir overrides s).1 = .error e) ↔
      ∃ d ∈ chain sourceDir dir, FileFault s (d.child fileName)) ∧
    ∀ t, (∀ d ∈ chain sourceDir dir, SameAt (d.child fileName) s t) →
      (load sourceDir dir overrides s).1 = (load sourceDir dir overrides t).1 := by
  refine ⟨?_, fun ps hps => ?_, ⟨fun ⟨e, he⟩ => ?_, fun ⟨d, hd, hfault⟩ => ?_⟩, fun t hsame => ?_⟩
  · rw [chain, List.map_reverse, Path.parts_takeWhile_ancestors hbelow habsolute,
      List.reverse_reverse]
  · obtain ⟨files, hfiles, ps', hps', hvalues⟩ | ⟨-, e, he⟩ := load_cases sourceDir dir overrides s
    · cases hps.symm.trans hps'
      exact ⟨files, hfiles, hvalues⟩
    · cases hps.symm.trans he
  · obtain ⟨_, _, ps, hps, _⟩ | ⟨hfault, -⟩ := load_cases sourceDir dir overrides s
    · cases he.symm.trans hps
    · exact hfault
  · obtain ⟨files, hfiles, -⟩ | ⟨-, he⟩ := load_cases sourceDir dir overrides s
    · obtain ⟨entries, -, hgives⟩ := exists_mem_of_forall₂ hfiles.flip hd
      exact absurd hfault hgives.not_fault
    · exact he
  · have hon : SameOn (fun p => ∃ d ∈ chain sourceDir dir, p = d.child fileName) s t :=
      fun p ⟨d, hd, hp⟩ => hp ▸ hsame d hd
    refine (mirrors_load overrides (fun d hd => ?_) s t hon).1
    exact mirrors_readFile (mirrors_isFile_same ⟨d, hd, rfl⟩) (mirrors_readText_same ⟨d, hd, rfl⟩)

/-- Files in two directories of a chain, and one around the source directory. -/
def layeredFiles : Store :=
  .memory (((Memory.empty.put ⟨"/work/src/docs-parameters.json"⟩
      (.text "\x7b\"a\": \"root\", \"b\": \"root\", \"c\": \"root\"\x7d")).put
    ⟨"/work/src/guide/docs-parameters.json"⟩ (.text "\x7b\"b\": \"guide\"\x7d")).put
    ⟨"/work/docs-parameters.json"⟩ (.text "\x7b\"d\": \"outside\"\x7d"))

theorem load_layeredFiles :
    (load ⟨"/work/src"⟩ ⟨"/work/src/guide"⟩ [("c", "caller")] layeredFiles).1
        = .ok [("a", "root"), ("b", "guide"), ("c", "caller")] ∧
      (∃ files, List.Forall₂ (fun d => FileGives layeredFiles (d.child fileName))
          (chain ⟨"/work/src"⟩ ⟨"/work/src/guide"⟩) files ∧
        ∀ name, get? name [("a", "root"), ("b", "guide"), ("c", "caller")]
          = (lastOf name [("c", "caller")]).or (files.reverse.findSome? (lastOf name))) ∧
      ¬∃ d ∈ chain ⟨"/work/src"⟩ ⟨"/work/src/guide"⟩,
        FileFault layeredFiles (d.child fileName) := by
  have hload : (load ⟨"/work/src"⟩ ⟨"/work/src/guide"⟩ [("c", "caller")] layeredFiles).1
      = .ok [("a", "root"), ("b", "guide"), ("c", "caller")] := by decide +kernel
  have hbelow : (Path.mk "/work/src/guide").below? ⟨"/work/src"⟩ = some [.name "guide"] := by
    decide +kernel
  obtain ⟨-, hvalues, hfault, -⟩ := load_of_below hbelow rfl [("c", "caller")] layeredFiles
  refine ⟨hload, hvalues _ hload, fun h => ?_⟩
  obtain ⟨e, he⟩ := hfault.2 h
  cases hload.symm.trans he

end Parameters
end AgentDocs
