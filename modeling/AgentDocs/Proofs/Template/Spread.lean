import AgentDocs.Proofs.Store.Subdirs
import AgentDocs.Template.HeaderTargets

/-! # Targets with a star

A target is cut at its last star. The text before it leads to a directory, and the target stands
for one file for each directory inside: the text behind the star is put behind the path of that
directory. So where the star begins a part of the target, it stands for the names of these
directories, whatever `..` takes away. A star that does not is read as if it did. -/
namespace AgentDocs
open Effect Store Text

/-! ## Parts of joined texts -/

/-- A name is one still with text behind it. -/
theorem Part.Proper.append {name : String} (h : (Part.name name).Proper) {more : List Char}
    (hmore : '/' ∉ more) : (Part.name (name ++ String.ofList more)).Proper := by
  obtain ⟨hne, hhere, hup, hslash⟩ := h
  have hchars : (name ++ String.ofList more).toList = name.toList ++ more := by simp
  refine ⟨?_, ?_, ?_, ?_⟩ <;> rw [hchars]
  · exact List.append_ne_nil_of_left_ne_nil hne more
  · intro heq
    rcases List.append_eq_singleton_iff.1 heq with ⟨hname, -⟩ | ⟨hname, -⟩
    · exact hne hname
    · exact hhere hname
  · intro heq
    obtain ⟨hname, -⟩ | ⟨rest, hname, hrest⟩ := List.append_eq_cons_iff.1 heq
    · exact hne hname
    · rcases List.append_eq_singleton_iff.1 hrest.symm with ⟨rfl, -⟩ | ⟨rfl, -⟩
      · exact hhere hname
      · exact hup hname
  · rw [List.mem_append, not_or]
    exact ⟨hslash, hmore⟩

namespace Path

theorem inner_append_slash (a b : List Char) : inner (a ++ '/' :: b) = inner a ++ inner b := by
  rw [inner, split_append_cons, List.filterMap_append, inner, inner]

/-- Parts that come to the same may stand for one another in front of others. -/
theorem normalParts_append_congr {ps qs : List Part} (h : normalParts ps = normalParts qs)
    (rest : List Part) : normalParts (ps ++ rest) = normalParts (qs ++ rest) := by
  have hfold : ps.foldl fold [] = qs.foldl fold [] := List.reverse_inj.1 h
  rw [normalParts, normalParts, List.foldl_append, List.foldl_append, hfold]

/-- Text behind a name goes on with it, and has parts of its own then. -/
theorem exists_inner_name_append (behind : List Char) :
    ∃ more rest, ∀ name : String, (Part.name name).Proper →
      inner (name.toList ++ behind) = .name (name ++ more) :: rest ∧
      partsOf (name.toList ++ behind) = .name (name ++ more) :: rest := by
  obtain ⟨more, rest, hsplit⟩ := List.exists_cons_of_ne_nil (split_ne_nil '/' behind)
  refine ⟨String.ofList more, rest.filterMap (Part.ofField? false), fun name hname => ?_⟩
  have hproper := hname.append (notMem_of_mem_split (hsplit ▸ List.mem_cons_self))
  have hfields : split '/' (name.toList ++ behind) = (name ++ String.ofList more).toList :: rest := by
    rw [split_append_of_notMem hname.2.2.2 hsplit, String.toList_append, String.toList_ofList]
  have hfield (front : Bool) : Part.ofField? front (name ++ String.ofList more).toList
      = some (.name (name ++ String.ofList more)) := ofField?_text hproper front (by simp) (by simp)
  constructor
  · rw [inner, hfields, List.filterMap_cons_some (hfield false)]
  · rw [partsOf_eq_of_head hfields (.inl hproper.1), hfield true]
    rfl

/-- Text behind a path that ends in its name is put behind this name. -/
theorem EndsInName.exists_parts {p : Path} {name : String} (h : p.EndsInName)
    (hname : p.fileName? = some name) (hproper : (Part.name name).Proper) :
    ∃ front, ∀ behind, partsOf (p.text.toList ++ behind) = front ++ inner (name.toList ++ behind) := by
  obtain ⟨outer, hsplit⟩ := List.getLast?_eq_some_iff.1 (h name hname)
  have htext := join_split '/' p.text.toList
  rw [hsplit] at htext
  -- the name stands alone, or right behind the first slash, or behind a slash and other text
  by_cases houter : outer = []
  · refine ⟨[], fun behind => ?_⟩
    rw [houter, List.nil_append, Text.join] at htext
    obtain ⟨more, rest, hparts⟩ := exists_inner_name_append behind
    rw [← htext, (hparts name hproper).1, (hparts name hproper).2, List.nil_append]
  rw [join_append houter (List.cons_ne_nil _ _), List.append_assoc, List.singleton_append,
    Text.join] at htext
  generalize Text.join ['/'] outer = dir at htext
  by_cases hdir : dir = []
  · refine ⟨[.root], fun behind => ?_⟩
    rw [← htext, hdir, List.nil_append, List.cons_append, partsOf_slash]
    rfl
  · refine ⟨partsOf dir, fun behind => ?_⟩
    rw [← htext, List.append_assoc, List.cons_append, partsOf_append_slash _ hdir]

theorem inner_name {name : String} (h : (Part.name name).Proper) : inner name.toList = [.name name] := by
  rw [inner, split_of_notMem h.2.2.2]
  exact List.filterMap_cons_some (ofField?_text h false (by simp) (by simp))

/-- What is put behind the path of something in a directory is put behind its name. -/
theorem partsOf_append {p : Path} {front : List Part} {name : String}
    (hparts : p.parts = front ++ [.name name]) {behind : List Char}
    (h : behind = [] ∨ behind.head? = some '/' ∨ p.EndsInName) :
    partsOf (p.text.toList ++ behind) = front ++ inner (name.toList ++ behind) := by
  have hproper : (Part.name name).Proper := proper_of_mem_parts (p := p) (by simp [hparts])
  have hne : p.text.toList ≠ [] := by
    intro hnil
    rw [parts, hnil] at hparts
    simp [partsOf, split, Part.ofField?] at hparts
  rcases h with rfl | hslash | hends
  · rw [List.append_nil, List.append_nil, inner_name hproper]
    exact hparts
  · obtain ⟨rest, rfl⟩ := List.head?_eq_some_iff.1 hslash
    rw [partsOf_append_slash _ hne, inner_append_slash, inner_name hproper, ← List.append_assoc,
      ← hparts]
    rfl
  · obtain ⟨front', hfront⟩ := hends.exists_parts (fileName?_of_parts hparts) hproper
    have hself := hfront []
    rw [List.append_nil, List.append_nil, inner_name hproper] at hself
    rw [hfront, List.append_cancel_right (hself.symm.trans hparts)]

/-- Text behind a slash has parts of its own. -/
theorem inner_append {before : List Char} (h : before = [] ∨ before.getLast? = some '/')
    (behind : List Char) : inner (before ++ behind) = inner before ++ inner behind := by
  rcases h with rfl | hslash
  · rfl
  · obtain ⟨front, rfl⟩ := List.getLast?_eq_some_iff.1 hslash
    rw [List.append_assoc, List.singleton_append, inner_append_slash, inner_append_slash,
      List.append_assoc]
    rfl

/-- What is put behind the path of something in a directory can be read from where the directory
was read from. -/
theorem normal_append_eq {root p : Path} {before behind name : String}
    (hparts : p.parts = (root.within before).parts ++ [.name name])
    (hbefore : before.toList = [] ∨ before.toList.getLast? = some '/')
    (hbehind : behind.toList = [] ∨ behind.toList.head? = some '/' ∨ p.EndsInName) :
    (Path.mk (p.text ++ behind)).normal = root.within (before ++ name ++ behind) := by
  have hdir : normalParts (root.within before).parts
      = normalParts (root.parts ++ inner before.toList) := by
    rw [← parts_within, ← parts_normal, within, normal_normal]
  refine eq_of_normal (normal_normal _) (normal_normal _) ?_
  rw [parts_normal, parts, String.toList_append, partsOf_append hparts hbehind,
    normalParts_append_congr hdir, parts_within, String.toList_append, String.toList_append,
    List.append_assoc before.toList, inner_append hbefore, List.append_assoc]

end Path

/-! ## What a star stands for -/

/-- Whether parts are those of a pattern, but for one that begins with a star in the pattern and with
another text in its place. -/
def Fills (text : String) (pattern parts : List Part) : Prop :=
  parts = pattern ∨ ∃ front behind back, pattern = front ++ .name ("*" ++ behind) :: back ∧
    parts = front ++ .name (text ++ behind) :: back

namespace Fills
variable {text : String} {pattern parts : List Part}

theorem reverse (h : Fills text pattern parts) : Fills text pattern.reverse parts.reverse := by
  rcases h with rfl | ⟨front, behind, back, rfl, rfl⟩
  · exact .inl rfl
  · exact .inr ⟨back.reverse, behind, front.reverse, by simp, by simp⟩

/-- One more part is taken alike: `..` takes both names away or none. -/
theorem fold (h : Fills text pattern parts) (p : Part) :
    Fills text (Path.fold pattern p) (Path.fold parts p) := by
  rcases h with rfl | ⟨front, behind, back, rfl, rfl⟩
  · exact .inl rfl
  cases p with
  | here => exact .inr ⟨front, behind, back, rfl, rfl⟩
  | root => exact .inr ⟨.root :: front, behind, back, rfl, rfl⟩
  | name other => exact .inr ⟨.name other :: front, behind, back, rfl, rfl⟩
  | up =>
    cases front with
    -- the part with the star is taken away, and with it all difference
    | nil => exact .inl rfl
    | cons first front =>
      cases first with
      | name other => exact .inr ⟨front, behind, back, rfl, rfl⟩
      | root => exact .inr ⟨.root :: front, behind, back, rfl, rfl⟩
      | here => exact .inr ⟨.up :: .here :: front, behind, back, rfl, rfl⟩
      | up => exact .inr ⟨.up :: .up :: front, behind, back, rfl, rfl⟩

theorem foldl_fold (h : Fills text pattern parts) (ps : List Part) :
    Fills text (ps.foldl Path.fold pattern) (ps.foldl Path.fold parts) := by
  induction ps generalizing pattern parts with
  | nil => exact h
  | cons p ps ih => exact ih (h.fold p)

/-- Parts with a star stay alike when they are made normal. -/
theorem normalParts (front : List Part) (behind : String) (back : List Part) :
    Fills text (Path.normalParts (front ++ .name ("*" ++ behind) :: back))
      (Path.normalParts (front ++ .name (text ++ behind) :: back)) := by
  have hstart : Fills text (.name ("*" ++ behind) :: front.foldl Path.fold [])
      (.name (text ++ behind) :: front.foldl Path.fold []) := .inr ⟨[], behind, _, rfl, rfl⟩
  have hfold := hstart.foldl_fold back
  rw [Path.normalParts, Path.normalParts, List.foldl_append, List.foldl_append]
  exact hfold.reverse

end Fills

namespace Template

/-! ## Cutting a target -/

/-- A target is cut at its last star. -/
theorem targetsOf_star (root : Path) (before : String) {behind : String}
    (h : '*' ∉ behind.toList) :
    targetsOf root (before ++ "*" ++ behind) = spreadTargets root (dropSlashes before) behind := by
  have hsplit : splitLast '*' (dropSlashes (before ++ "*" ++ behind)).toList
      = some ((dropSlashes before).toList, behind.toList) := by
    have hdrop : (before ++ "*" ++ behind).toList.dropWhile (· == '/')
        = before.toList.dropWhile (· == '/') ++ '*' :: behind.toList := by
      rw [String.toList_append, String.toList_append, List.append_assoc, List.dropWhile_append]
      split
      · rename_i hempty
        rw [List.isEmpty_iff.1 hempty]
        rfl
      · rfl
    rw [dropSlashes, dropSlashes, onChars, onChars, String.toList_ofList, String.toList_ofList, hdrop]
    exact splitLast_append h _
  simp only [targetsOf, hsplit, String.ofList_toList]

/-- A slash in front of the star makes no difference. -/
theorem targetsOf_slash (root : Path) (before : String) {behind : String}
    (h : '*' ∉ behind.toList) :
    targetsOf root (before ++ "*" ++ behind) = targetsOf root (before ++ "/*" ++ behind) := by
  have hslash : before ++ "/*" ++ behind = before ++ "/" ++ "*" ++ behind := by
    rw [← String.toList_inj]
    simp
  have hdir : root.within before = root.within (before ++ "/") := by
    refine Path.eq_of_normal (Path.normal_normal _) (Path.normal_normal _) ?_
    rw [Path.parts_within, Path.parts_within, String.toList_append]
    have hinner := Path.inner_append_slash before.toList []
    have hnil : Path.inner [] = [] := rfl
    rw [hnil, List.append_nil] at hinner
    exact congrArg (fun ps => Path.normalParts (root.parts ++ ps)) hinner.symm
  rw [hslash, targetsOf_star root before h, targetsOf_star root _ h, spreadTargets, spreadTargets,
    ← Path.within, ← Path.within, hdir]

/-! ## The files of a target with a star -/

section
variable {root : Path} {before behind : String} {s : Store}

theorem isDir_apply (p : Path) (s : Store) : isDir p s = ((isDir p s).1, s) := by
  cases s <;> rfl

theorem spreadTargets_of_error {e : Store.Error}
    (h : (isDir (root.within before) s).1 = .error e) :
    spreadTargets root (dropSlashes before) behind s = (.error (.ofStore e), s) := by
  rw [spreadTargets, ← Path.within, bind_apply, Task.wrapError, isDir_apply, h]
  rfl

theorem spreadTargets_of_not_isDir (h : (isDir (root.within before) s).1 = .ok false) :
    spreadTargets root (dropSlashes before) behind s = (.ok [], s) := by
  rw [spreadTargets, ← Path.within, bind_apply, Task.wrapError, isDir_apply, h]
  rfl

theorem spreadTargets_of_listDirs (h : (isDir (root.within before) s).1 = .ok true)
    {dirs : List Path} (hdirs : listDirs (root.within before) "*" s = (.ok dirs, s)) :
    spreadTargets root (dropSlashes before) behind s
      = (.ok (dirs.map fun d => (Path.mk (d.text ++ behind)).normal), s) := by
  have hlist : Task.wrapError Fault.ofStore (listDirs (root.within before) "*") s = (.ok dirs, s) := by
    rw [Task.wrapError, hdirs]
    rfl
  rw [spreadTargets, ← Path.within, bind_apply, Task.wrapError, isDir_apply, h]
  change (Task.wrapError Fault.ofStore (listDirs (root.within before) "*") >>= _) s = _
  rw [bind_apply, hlist]
  rfl

/-- What is read with a name for the star is what is read with the star, but for this name. -/
theorem fills_within (root : Path) (behind : String) {name : String}
    (hbefore : before.toList = [] ∨ before.toList.getLast? = some '/')
    (hname : (Part.name name).Proper) :
    Fills name (root.within (before ++ "*" ++ behind)).parts
      (root.within (before ++ name ++ behind)).parts := by
  obtain ⟨more, rest, hmore⟩ := Path.exists_inner_name_append behind.toList
  have hparts : ∀ text : String, (Part.name text).Proper →
      (root.within (before ++ text ++ behind)).parts = Path.normalParts
        ((root.parts ++ Path.inner before.toList) ++ .name (text ++ more) :: rest) := by
    intro text htext
    rw [Path.parts_within, String.toList_append, String.toList_append, List.append_assoc,
      Path.inner_append hbefore, (hmore text htext).1, List.append_assoc]
  have hstar : (Part.name "*").Proper := by simp [Part.Proper]
  rw [hparts "*" hstar, hparts name hname]
  exact .normalParts _ more rest

/-- If it can be told whether there is the directory before the star, the target stands for one
file for each directory in it. -/
theorem exists_spreadTargets (hs : s.Sorted)
    (hbefore : before.toList = [] ∨ before.toList.getLast? = some '/')
    (hbehind : behind.toList = [] ∨ behind.toList.head? = some '/' ∨ s.Plain) {found : Bool}
    (h : (isDir (root.within before) s).1 = .ok found) :
    ∃ names, Subdirs s (root.within before) names ∧
      spreadTargets root (dropSlashes before) behind s
        = (.ok (names.map fun name => root.within (before ++ name ++ behind)), s) ∧
      ∀ name ∈ names, '/' ∉ name.toList ∧ Fills name (root.within (before ++ "*" ++ behind)).parts
        (root.within (before ++ name ++ behind)).parts := by
  cases found with
  | false => exact ⟨[], subdirs_of_not_isDir h, spreadTargets_of_not_isDir h, List.forall_mem_nil _⟩
  | true =>
    obtain ⟨dirs, names, hdirs, hsub, hnamed, hends⟩ := exists_listDirs hs h
    refine ⟨names, hsub, ?_, fun name hname => ?_⟩
    · rw [spreadTargets_of_listDirs h hdirs]
      refine congrArg (fun targets => (Except.ok targets, s)) (hnamed.map_eq fun p hp name hparts => ?_)
      exact Path.normal_append_eq hparts hbefore
        (hbehind.imp_right (Or.imp_right fun hplain => hends hplain p hp))
    · have hproper := hnamed.proper hname
      exact ⟨hproper.2.2.2, fills_within root behind hbefore hproper⟩

end

/-- Where the last star of a target begins a part of its path, the target stands for one file for
each directory there is at the text before the star, in the order of their names: the file at the
target with the name in place of the star. The parts of its path are those of the target but for
the name. If the store cannot tell what there is, its fault is passed on. Where text stands in
front of the star, it is as if a slash stood between them. Text right behind the star goes on with
the name if the paths in the store end in their names. -/
theorem star_stands_for_directories (root : Path) {s : Store} (hs : s.Sorted) (before : String)
    {behind : String} (hstar : '*' ∉ behind.toList) :
    ((before.toList = [] ∨ before.toList.getLast? = some '/') →
      (behind.toList = [] ∨ behind.toList.head? = some '/' ∨ s.Plain) →
      (∀ e, (isDir (root.within before) s).1 = .error e →
        targetsOf root (before ++ "*" ++ behind) s = (.error (.ofStore e), s)) ∧
      ∀ found, (isDir (root.within before) s).1 = .ok found →
        ∃ names, Subdirs s (root.within before) names ∧
          targetsOf root (before ++ "*" ++ behind) s
            = (.ok (names.map fun name => root.within (before ++ name ++ behind)), s) ∧
          ∀ name ∈ names, '/' ∉ name.toList ∧
            Fills name (root.within (before ++ "*" ++ behind)).parts
              (root.within (before ++ name ++ behind)).parts) ∧
    targetsOf root (before ++ "*" ++ behind) = targetsOf root (before ++ "/*" ++ behind) := by
  refine ⟨fun hbefore hbehind => ?_, targetsOf_slash root before hstar⟩
  rw [targetsOf_star root before hstar]
  exact ⟨fun e he => spreadTargets_of_error he, fun found h =>
    exists_spreadTargets hs hbefore hbehind h⟩

/-- Two directories, and text right behind the star. -/
theorem star_stands_for_two :
    let s : Store := .memory ⟨[(⟨"/w/m/c"⟩, .text "")],
      [(⟨"/w/m"⟩, ()), (⟨"/w/m/a"⟩, ()), (⟨"/w/m/b"⟩, ())], []⟩
    s.Sorted ∧ '*' ∉ ".md".toList ∧ "m/".toList.getLast? = some '/' ∧ s.Plain ∧
      (isDir ((Path.mk "/w").within "m/") s).1 = .ok true ∧
      ∃ names, Subdirs s ⟨"/w/m"⟩ names ∧
        names.map (fun name => (Path.mk "/w").within ("m/" ++ name ++ ".md"))
          = [⟨"/w/m/a.md"⟩, ⟨"/w/m/b.md"⟩] := by
  intro s
  have hs : s.Sorted := List.pairwise_singleton _ _
  have hplain : s.Plain := by
    unfold Plain
    decide
  have hdir : (isDir ((Path.mk "/w").within "m/") s).1 = .ok true := rfl
  have hstar : '*' ∉ ".md".toList := by decide
  have hspread := (star_stands_for_directories ⟨"/w"⟩ hs "m/" hstar).1 (.inr (by decide))
    (.inr (.inr hplain))
  obtain ⟨names, hsub, htargets, _⟩ := hspread.2 true hdir
  have hrun : (targetsOf ⟨"/w"⟩ "m/*.md" s).1 = .ok [⟨"/w/m/a.md"⟩, ⟨"/w/m/b.md"⟩] := by
    decide +kernel
  have hnames := (congrArg (·.1) htargets).symm.trans hrun
  exact ⟨hs, hstar, by decide, hplain, hdir, names, hsub, Except.ok.inj hnames⟩

/-- A star behind text adds a part to the path. -/
theorem star_behind_text :
    let s : Store := .memory ⟨[],
      [(⟨"/w/m"⟩, ()), (⟨"/w/m/au"⟩, ()), (⟨"/w/m/au/sub"⟩, ())], []⟩
    (targetsOf ⟨"/w"⟩ "m/au*/x.md" s).1 = .ok [⟨"/w/m/au/sub/x.md"⟩] ∧
      (Path.mk "/w/m/au/sub/x.md").parts.length
        ≠ ((Path.mk "/w").within "m/au*/x.md").parts.length :=
  ⟨by decide +kernel, by decide +kernel⟩

end Template
end AgentDocs
