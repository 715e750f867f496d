import AgentDocs.Path.Normal
import AgentDocs.Proofs.Path.Parts

/-! # Normal paths

Normal parts are the root and names, or `..` some times and names. Making a path normal gives such
parts, keeps them, and goes on with names that follow. -/
namespace AgentDocs.Path
open Text

/-- Parts that are names, as they can be read off a text. -/
def AreNames (ps : List Part) : Prop := ∀ p ∈ ps, p.isName = true ∧ p.Proper

/-- What `fold` has taken, last first: names, and below them the root or `..` some times. -/
def Folded (taken : List Part) : Prop :=
  ∃ names base, taken = names ++ base ∧ AreNames names ∧ (base = [.root] ∨ ∀ p ∈ base, p = .up)

theorem areNames_nil : AreNames [] := fun _ h => nomatch h

theorem AreNames.cons {p : Part} {ps : List Part} (hp : p.isName = true ∧ p.Proper)
    (h : AreNames ps) : AreNames (p :: ps) := by
  intro q hq
  rcases List.mem_cons.1 hq with rfl | hq
  · exact hp
  · exact h q hq

theorem AreNames.written {ps : List Part} (h : AreNames ps) :
    ∀ p ∈ ps, p.Proper ∧ p ≠ .root ∧ p ≠ .here := by
  intro p hp
  obtain ⟨hn, hproper⟩ := h p hp
  refine ⟨hproper, ?_, ?_⟩ <;> rintro rfl <;> simp [Part.isName] at hn

/-- Names are read again from their texts. -/
theorem AreNames.map_name_text {ps : List Part} (h : AreNames ps) :
    (ps.map Part.text).map Part.name = ps := by
  rw [List.map_map]
  refine (List.map_congr_left fun p hp => ?_).trans (List.map_id ps)
  have hname := (h p hp).1
  cases p with
  | name text => rfl
  | _ => simp [Part.isName] at hname

theorem folded_fold {taken : List Part} (h : Folded taken) {p : Part} (hp : p.Proper)
    (hr : p ≠ .root) : Folded (fold taken p) := by
  obtain ⟨names, base, rfl, hn, hb⟩ := h
  cases p with
  | root => exact absurd rfl hr
  | here => exact ⟨names, base, rfl, hn, hb⟩
  | name text => exact ⟨.name text :: names, base, rfl, hn.cons ⟨rfl, hp⟩, hb⟩
  | up =>
    cases names with
    | cons first names =>
      cases first with
      | name text => exact ⟨names, base, rfl, fun q hq => hn q (List.mem_cons_of_mem _ hq), hb⟩
      | _ => exact absurd (hn _ List.mem_cons_self).1 (by simp [Part.isName])
    | nil =>
      rcases hb with rfl | hb
      · exact ⟨[], [.root], rfl, hn, .inl rfl⟩
      · cases base with
        | nil => exact ⟨[], [.up], rfl, hn, .inr (by simp)⟩
        | cons first base =>
          obtain rfl : first = .up := hb first List.mem_cons_self
          exact ⟨[], .up :: .up :: base, rfl, hn, .inr (by simpa using hb)⟩

theorem folded_foldl {taken ps : List Part} (h : Folded taken)
    (hps : ∀ p ∈ ps, p.Proper ∧ p ≠ .root ∧ p ≠ .here) : Folded (ps.foldl fold taken) := by
  induction ps generalizing taken with
  | nil => exact h
  | cons p ps ih =>
    obtain ⟨hp, hr, _⟩ := hps p List.mem_cons_self
    exact ih (folded_fold h hp hr) fun q hq => hps q (List.mem_cons_of_mem _ hq)

theorem folded_of_written {ps : List Part} (h : Written ps) : Folded (ps.foldl fold []) := by
  have hnil : Folded [] := ⟨[], [], rfl, areNames_nil, .inr (by simp)⟩
  cases ps with
  | nil => exact hnil
  | cons first rest =>
    have hfirst : Folded (fold [] first) := by
      by_cases hr : first = .root
      · subst hr
        exact ⟨[], [.root], rfl, areNames_nil, .inl rfl⟩
      · exact folded_fold hnil h.1 hr
    rw [List.foldl_cons]
    exact folded_foldl hfirst h.2

theorem Folded.written {taken : List Part} (h : Folded taken) : Written taken.reverse := by
  obtain ⟨names, base, rfl, hn, hb⟩ := h
  have hnames : ∀ p ∈ names.reverse, p.Proper ∧ p ≠ .root ∧ p ≠ .here := fun p hp =>
    hn.written p (List.mem_reverse.1 hp)
  have hall : ∀ ps : List Part, (∀ p ∈ ps, p.Proper ∧ p ≠ .root ∧ p ≠ .here) → Written ps := by
    intro ps hps
    cases ps with
    | nil => trivial
    | cons first rest =>
      exact ⟨(hps _ List.mem_cons_self).1, fun p hp => hps p (List.mem_cons_of_mem _ hp)⟩
  rw [List.reverse_append]
  rcases hb with rfl | hb
  · exact ⟨trivial, hnames⟩
  · refine hall _ fun p hp => ?_
    rcases List.mem_append.1 hp with hp | hp
    · obtain rfl := hb p (List.mem_reverse.1 hp)
      simp [Part.Proper]
    · exact hnames p hp

/-- The parts of a normal path. -/
theorem parts_normal (p : Path) : p.normal.parts = normalParts p.parts :=
  parts_ofParts (folded_of_written (written_parts p)).written

theorem normal_congr {p q : Path} (h : p.parts = q.parts) : p.normal = q.normal := by
  rw [normal, normal, h]

/-! ## Taking parts one by one -/

theorem foldl_fold_names {taken names : List Part} (h : ∀ p ∈ names, p.isName = true) :
    names.foldl fold taken = names.reverse ++ taken := by
  induction names generalizing taken with
  | nil => rfl
  | cons p names ih =>
    have hp := h p List.mem_cons_self
    cases p with
    | name text =>
      rw [List.foldl_cons, ih fun q hq => h q (List.mem_cons_of_mem _ hq)]
      simp [fold]
    | _ => simp [Part.isName] at hp

/-- Names that follow are kept. -/
theorem normalParts_append_names {ps names : List Part} (h : ∀ p ∈ names, p.isName = true) :
    normalParts (ps ++ names) = normalParts ps ++ names := by
  simp [normalParts, List.foldl_append, foldl_fold_names h]

theorem foldl_fold_ups {taken ups : List Part} (ht : ∀ p ∈ taken, p = .up)
    (h : ∀ p ∈ ups, p = .up) : ups.foldl fold taken = ups.reverse ++ taken := by
  induction ups generalizing taken with
  | nil => rfl
  | cons p ups ih =>
    obtain rfl := h p List.mem_cons_self
    have hfold : fold taken .up = .up :: taken := by
      cases taken with
      | nil => rfl
      | cons q taken =>
        obtain rfl := ht q List.mem_cons_self
        rfl
    rw [List.foldl_cons, hfold, ih (by simpa using ht) fun q hq => h q (List.mem_cons_of_mem _ hq)]
    simp

theorem Folded.foldl_reverse {taken : List Part} (h : Folded taken) :
    taken.reverse.foldl fold [] = taken := by
  obtain ⟨names, base, rfl, hn, hb⟩ := h
  have hnames : ∀ p ∈ names.reverse, p.isName = true := fun p hp => (hn p (List.mem_reverse.1 hp)).1
  rw [List.reverse_append, List.foldl_append, foldl_fold_names hnames, List.reverse_reverse]
  rcases hb with rfl | hb
  · rfl
  · rw [foldl_fold_ups (by simp) fun p hp => hb p (List.mem_reverse.1 hp)]
    simp

/-- What is in front may be made normal first. -/
theorem normalParts_normalParts_append {ps : List Part} (h : Written ps) (qs : List Part) :
    normalParts (normalParts ps ++ qs) = normalParts (ps ++ qs) := by
  simp only [normalParts, List.foldl_append, (folded_of_written h).foldl_reverse]

theorem normalParts_normalParts {ps : List Part} (h : Written ps) :
    normalParts (normalParts ps) = normalParts ps := by
  simpa using normalParts_normalParts_append h []

theorem foldl_fold_filter (taken ps : List Part) :
    (ps.filter (· != .here)).foldl fold taken = ps.foldl fold taken := by
  induction ps generalizing taken with
  | nil => rfl
  | cons p ps ih => cases p <;> simp [ih, fold]

theorem normal_normal (p : Path) : p.normal.normal = p.normal := by
  rw [normal, parts_normal, normalParts_normalParts (written_parts p)]
  rfl

/-- A place has one normal path. -/
theorem eq_of_normal {p q : Path} (hp : p.normal = p) (hq : q.normal = q)
    (h : p.parts = q.parts) : p = q := by
  rw [← hp, ← hq, normal_congr h]

/-- A normal path from the root has names only. -/
theorem exists_names_of_isAbsolute {p : Path} (hnormal : p.normal = p)
    (habs : p.isAbsolute = true) : ∃ names, AreNames names ∧ p.parts = .root :: names := by
  obtain ⟨rest, hrest⟩ := isAbsolute_iff.1 habs
  obtain ⟨names, base, htaken, hn, hb⟩ := folded_of_written (written_parts p)
  have hparts : p.parts = (names ++ base).reverse := by
    rw [← htaken, ← normalParts, ← parts_normal, hnormal]
  rcases hb with rfl | hb
  · refine ⟨names.reverse, fun q hq => hn q (List.mem_reverse.1 hq), ?_⟩
    rw [hparts, List.reverse_append]
    rfl
  · have hroot : Part.root ∈ names ++ base := by
      rw [← List.mem_reverse, ← hparts, hrest]
      exact List.mem_cons_self
    rcases List.mem_append.1 hroot with h | h
    · exact absurd rfl (hn.written _ h).2.1
    · exact absurd (hb _ h) (by simp)

/-- A path read from within a directory is made normal part by part. -/
theorem normalParts_join {base p : Path} (hp : p.isAbsolute = false) :
    normalParts (base.join p).parts = normalParts (base.parts ++ p.parts) := by
  by_cases hb : base.text = ""
  · have hbase : base.parts = [] := by simp [parts, hb, partsOf, split, Part.ofField?]
    have hjoin : base.join p = p := by simp [join, hp, hb]
    rw [hjoin, hbase, List.nil_append]
  · rw [parts_join hb hp]
    simp only [normalParts, List.foldl_append, foldl_fold_filter]

/-- The directory may be made normal first. -/
theorem normal_join_normal (base p : Path) :
    (base.normal.join p).normal = (base.join p).normal := by
  by_cases hp : p.isAbsolute = true
  · rw [join, join, if_pos hp, if_pos hp]
  · rw [Bool.not_eq_true] at hp
    refine eq_of_normal (normal_normal _) (normal_normal _) ?_
    rw [parts_normal, parts_normal, normalParts_join hp, normalParts_join hp, parts_normal,
      normalParts_normalParts_append (written_parts base)]

/-! ## Reading from within a directory -/

/-- No slash is left in front. -/
theorem isAbsolute_dropSlashes (text : String) : (Path.mk (dropSlashes text)).isAbsolute = false := by
  have hhead := List.head?_dropWhile_not (· == '/') text.toList
  rw [Path.isAbsolute, dropSlashes, onChars, String.toList_ofList]
  cases hchars : text.toList.dropWhile (· == '/') with
  | nil => rfl
  | cons c cs =>
    rw [hchars] at hhead
    simpa using hhead

theorem inner_cons_slash (text : List Char) : inner ('/' :: text) = inner text := by
  rw [inner, split, if_pos rfl]
  rfl

theorem inner_dropWhile (text : List Char) :
    inner (text.dropWhile (· == '/')) = inner text := by
  induction text with
  | nil => rfl
  | cons c text ih =>
    by_cases hc : c = '/'
    · rw [List.dropWhile_cons_of_pos (by simp [hc]), ih, hc, inner_cons_slash]
    · rw [List.dropWhile_cons_of_neg (by simp [hc])]

/-- What is read from within a directory goes on with the fields of the reference. -/
theorem parts_within (base : Path) (reference : String) :
    (base.within reference).parts = normalParts (base.parts ++ inner reference.toList) := by
  have hrel := isAbsolute_dropSlashes reference
  have hhead : (dropSlashes reference).toList.head? ≠ some '/' := by simpa [isAbsolute] using hrel
  have hinner : inner reference.toList = (Path.mk (dropSlashes reference)).parts.filter (· != .here) := by
    rw [parts, ← inner_eq hhead, dropSlashes, onChars, String.toList_ofList, inner_dropWhile]
  rw [within, parts_normal, normalParts_join hrel, hinner]
  simp only [normalParts, List.foldl_append, foldl_fold_filter]

/-! ## The root -/

theorem foldl_fold_root (taken ps : List Part) :
    ∃ more, ps.foldl fold (taken ++ [.root]) = more ++ [.root] := by
  induction ps generalizing taken with
  | nil => exact ⟨taken, rfl⟩
  | cons p ps ih =>
    have hfold : ∃ more, fold (taken ++ [.root]) p = more ++ [.root] := by
      cases p with
      | here => exact ⟨taken, rfl⟩
      | root => exact ⟨.root :: taken, rfl⟩
      | name text => exact ⟨.name text :: taken, rfl⟩
      | up =>
        cases taken with
        | nil => exact ⟨[], rfl⟩
        | cons q taken =>
          cases q with
          | name text => exact ⟨taken, rfl⟩
          | root => exact ⟨.root :: taken, rfl⟩
          | here => exact ⟨.up :: .here :: taken, rfl⟩
          | up => exact ⟨.up :: .up :: taken, rfl⟩
    obtain ⟨more, hmore⟩ := hfold
    rw [List.foldl_cons, hmore]
    exact ih more

theorem isAbsolute_normal {p : Path} (h : p.isAbsolute = true) : p.normal.isAbsolute = true := by
  obtain ⟨rest, hp⟩ := isAbsolute_iff.1 h
  obtain ⟨more, hm⟩ := foldl_fold_root [] rest
  refine isAbsolute_iff.2 ⟨more.reverse, ?_⟩
  have hm : rest.foldl fold (fold [] .root) = more ++ [.root] := hm
  rw [parts_normal, hp, normalParts, List.foldl_cons, hm, List.reverse_append]
  rfl

/-- Whether a path leads from the root by names only. -/
def Rooted (p : Path) : Prop := ∃ names, AreNames names ∧ p.parts = .root :: names

theorem rooted_normal {p : Path} (h : p.isAbsolute = true) : p.normal.Rooted :=
  exists_names_of_isAbsolute (normal_normal p) (isAbsolute_normal h)

namespace Rooted
variable {p dir : Path}

theorem isAbsolute (h : p.Rooted) : p.isAbsolute = true := by
  obtain ⟨names, _, hp⟩ := h
  exact isAbsolute_iff.2 ⟨names, hp⟩

/-- Such a path is normal up to its spelling. -/
theorem parts_normal (h : p.Rooted) : p.normal.parts = p.parts := by
  obtain ⟨names, hn, hp⟩ := h
  have hfold : normalParts ([.root] ++ names) = [.root] ++ names :=
    normalParts_append_names fun q hq => (hn q hq).1
  rw [Path.parts_normal, hp]
  exact hfold

/-- Names may follow. -/
theorem append (h : dir.Rooted) {names : List Part} (hn : AreNames names)
    (hp : p.parts = dir.parts ++ names) : p.Rooted := by
  obtain ⟨more, hmore, hdir⟩ := h
  refine ⟨more ++ names, fun q hq => ?_, by rw [hp, hdir]; rfl⟩
  exact (List.mem_append.1 hq).elim (hmore q) (hn q)

end Rooted

/-! ## Ways -/

/-- Parts of a way: out any number of times, and then names. -/
def IsWay (ps : List Part) : Prop :=
  ∃ ups names, ps = ups ++ names ∧ (∀ p ∈ ups, p = .up) ∧ AreNames names

theorem IsWay.proper {ps : List Part} (h : IsWay ps) :
    ∀ p ∈ ps, p.Proper ∧ p ≠ .root ∧ p ≠ .here := by
  obtain ⟨ups, names, rfl, hups, hn⟩ := h
  intro p hp
  rcases List.mem_append.1 hp with hp | hp
  · rw [hups p hp]
    simp [Part.Proper]
  · exact hn.written p hp

theorem IsWay.written {ps : List Part} (h : IsWay ps) : Written ps := by
  cases ps with
  | nil => trivial
  | cons p ps =>
    exact ⟨(h.proper p List.mem_cons_self).1, fun q hq => h.proper q (List.mem_cons_of_mem _ hq)⟩

/-- Nothing of a way is left out where it is written with slashes. -/
theorem IsWay.slashed_eq {ps : List Part} (h : IsWay ps) :
    slashed ps = joined "/" (ps.map Part.text) := by
  unfold slashed
  refine congrArg (joined "/") ?_
  have hproper := h.proper
  clear h
  induction ps with
  | nil => rfl
  | cons p ps ih =>
    have hps := ih fun q hq => hproper q (List.mem_cons_of_mem _ hq)
    obtain ⟨_, hroot, hhere⟩ := hproper p List.mem_cons_self
    cases p with
    | root => exact absurd rfl hroot
    | here => exact absurd rfl hhere
    | up | name => simpa [Part.text] using hps

/-- A way is the same path however it is written. -/
theorem IsWay.mk_slashed {ps : List Part} (h : IsWay ps) : Path.mk (slashed ps) = ofParts ps := by
  rw [h.slashed_eq]
  cases ps with
  | nil => rfl
  | cons p ps =>
    have hroot := (h.proper p List.mem_cons_self).2.1
    cases p <;> first | exact absurd rfl hroot | rfl

/-- A way that is written with slashes is read as it was. -/
theorem IsWay.parts_slashed {ps : List Part} (h : IsWay ps) :
    (Path.mk (slashed ps)).parts = ps := by
  rw [h.mk_slashed, parts_ofParts h.written]

theorem IsWay.isAbsolute_slashed {ps : List Part} (h : IsWay ps) :
    (Path.mk (slashed ps)).isAbsolute = false := by
  rw [Bool.eq_false_iff]
  intro habs
  obtain ⟨rest, hrest⟩ := isAbsolute_iff.1 habs
  rw [h.parts_slashed] at hrest
  exact (h.proper .root (hrest ▸ List.mem_cons_self)).2.1 rfl

/-! ## Names below a directory -/

theorem AreNames.isWay {names : List Part} (h : AreNames names) : IsWay names :=
  ⟨[], names, rfl, by simp, h⟩

/-- Names joined by slashes are read as these names. -/
theorem parts_slashed {names : List Part} (h : AreNames names) :
    (Path.mk (slashed names)).parts = names := h.isWay.parts_slashed

theorem isAbsolute_slashed {names : List Part} (h : AreNames names) :
    (Path.mk (slashed names)).isAbsolute = false := h.isWay.isAbsolute_slashed

/-- The fields of names that are joined by slashes are the texts of the names. -/
theorem split_slashed {names : List Part} (hne : names ≠ []) (h : AreNames names) :
    split '/' (slashed names).toList = names.map fun p => p.text.toList := by
  rw [h.isWay.slashed_eq, toList_joined,
    split_joined hne fun p hp => ⟨(h p hp).2, (h.written p hp).2.1⟩]

theorem parts_normal_slashed {names : List Part} (h : AreNames names) :
    (Path.mk (slashed names)).normal.parts = names := by
  have hnames := @normalParts_append_names [] names fun p hp => (h p hp).1
  rw [parts_normal, parts_slashed h]
  simpa [normalParts] using hnames

/-- A place below a directory, from a spelling of the directory that need not be normal. -/
theorem parts_normal_join_slashed (base : Path) {names : List Part} (h : AreNames names) :
    (base.join ⟨slashed names⟩).normal.parts = base.normal.parts ++ names := by
  rw [parts_normal, normalParts_join (isAbsolute_slashed h), parts_slashed h,
    normalParts_append_names fun p hp => (h p hp).1, parts_normal]

theorem parts_child_slashed {base : Path} (hb : base.text ≠ "") {names : List Part}
    (h : AreNames names) : (base.child (slashed names)).parts = base.parts ++ names := by
  rw [child, parts_join hb (isAbsolute_slashed h), parts_slashed h, List.filter_eq_self.2]
  intro p hp
  simpa using (h.written p hp).2.2

/-- Names below a directory, which may be the empty path. -/
theorem parts_child_names (base : Path) {names : List Part} (h : AreNames names) :
    (base.child (slashed names)).parts = base.parts ++ names := by
  by_cases hb : base.text = ""
  · have hchild : base.child (slashed names) = ⟨slashed names⟩ := by
      simp [child, join, isAbsolute_slashed h, hb]
    have hbase : base.parts = [] := by simp [parts, hb, partsOf, split, Part.ofField?]
    rw [hchild, hbase, parts_slashed h, List.nil_append]
  · exact parts_child_slashed hb h

theorem slashed_singleton (text : String) : slashed [.name text] = text := by
  simp [slashed, joined, Text.join]

/-- A file that is named in a directory. -/
theorem parts_child_name (base : Path) {text : String} (h : (Part.name text).Proper) :
    (base.child text).parts = base.parts ++ [.name text] := by
  have hnames : AreNames [.name text] := areNames_nil.cons ⟨rfl, h⟩
  have hchild := parts_child_names base hnames
  rwa [slashed_singleton] at hchild

end AgentDocs.Path
