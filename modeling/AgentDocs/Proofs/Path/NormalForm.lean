import AgentDocs.Proofs.Path.Inside

/-! # Normal forms

A normal form is the root and names, or `..` some times and names. Making a path normal gives a
normal form, and it may be done first with the two paths of which one is read from within the
other. So a path that comes to names only is these names, behind any directory. -/
namespace AgentDocs.Path

/-! ## What was folded may be folded again -/

theorem notMem_root_fold {taken : List Part} {p : Part} (h : Part.root ∉ taken)
    (hp : p ≠ .root) : Part.root ∉ fold taken p := by
  cases p with
  | root => exact absurd rfl hp
  | here => exact h
  | name text => simpa [fold] using h
  | up =>
    cases taken with
    | nil => simp [fold]
    | cons q taken => cases q <;> simp_all [fold]

/-- A part that is taken by what was folded is taken behind other parts alike: a name that it takes
away is the last one there too. -/
theorem foldl_fold_step {taken : List Part} {p : Part} (h : Part.root ∉ taken) (hp : p ≠ .root)
    (base : List Part) :
    (fold taken p).reverse.foldl fold base = fold (taken.reverse.foldl fold base) p := by
  cases p with
  | root => exact absurd rfl hp
  | here => rfl
  | name text => simp [fold]
  | up =>
    cases taken with
    | nil => rfl
    | cons q taken =>
      cases q with
      | root => exact absurd List.mem_cons_self h
      | name text => simp [fold]
      | here | up => simp [fold]

/-- Parts that do not begin at the root may be folded before they are folded onto others. -/
theorem foldl_fold_reverse {taken ps : List Part} (h : Part.root ∉ taken) (hps : Part.root ∉ ps)
    (base : List Part) :
    (ps.foldl fold taken).reverse.foldl fold base
      = ps.foldl fold (taken.reverse.foldl fold base) := by
  induction ps generalizing taken with
  | nil => rfl
  | cons p ps ih =>
    have hp : p ≠ .root := (List.ne_of_not_mem_cons hps).symm
    rw [List.foldl_cons, List.foldl_cons,
      ih (notMem_root_fold h hp) (List.not_mem_of_not_mem_cons hps), foldl_fold_step h hp]

/-- What follows may be made normal first. -/
theorem normalParts_append_normalParts (ps : List Part) {qs : List Part} (h : Part.root ∉ qs) :
    normalParts (ps ++ normalParts qs) = normalParts (ps ++ qs) := by
  have hfold := foldl_fold_reverse List.not_mem_nil h (ps.foldl fold [])
  simp only [normalParts, List.foldl_append, hfold, List.reverse_nil, List.foldl_nil]

theorem notMem_root_normalParts {ps : List Part} (h : Part.root ∉ ps) :
    Part.root ∉ normalParts ps := by
  suffices hfold : ∀ taken : List Part, Part.root ∉ taken → Part.root ∉ ps.foldl fold taken by
    simpa [normalParts] using hfold [] List.not_mem_nil
  intro taken htaken
  induction ps generalizing taken with
  | nil => exact htaken
  | cons p ps ih =>
    exact ih (List.not_mem_of_not_mem_cons h) _
      (notMem_root_fold htaken (List.ne_of_not_mem_cons h).symm)

theorem notMem_root_iff {p : Path} : Part.root ∉ p.parts ↔ p.isAbsolute = false := by
  constructor
  · intro h
    rw [Bool.eq_false_iff]
    intro habs
    obtain ⟨rest, hrest⟩ := isAbsolute_iff.1 habs
    exact h (hrest ▸ List.mem_cons_self)
  · intro h hroot
    exact ne_root_of_mem_parts h _ hroot rfl

/-- A path begins at the root exactly if its normal path does. -/
theorem isAbsolute_normal_eq (p : Path) : p.normal.isAbsolute = p.isAbsolute := by
  cases h : p.isAbsolute with
  | true => exact isAbsolute_normal h
  | false =>
    rw [← notMem_root_iff] at h ⊢
    rw [parts_normal]
    exact notMem_root_normalParts h

/-- Both paths may be made normal before one is read from within the other. -/
theorem normal_join {a b : Path} (hb : b.isAbsolute = false) :
    (a.join b).normal = (a.normal.join b.normal).normal := by
  have hroot : Part.root ∉ b.parts := notMem_root_iff.2 hb
  have hb' : b.normal.isAbsolute = false := by rw [isAbsolute_normal_eq, hb]
  refine eq_of_normal (normal_normal _) (normal_normal _) ?_
  calc (a.join b).normal.parts
      = normalParts (a.parts ++ b.parts) := by rw [parts_normal, normalParts_join hb]
    _ = normalParts (a.parts ++ normalParts b.parts) :=
        (normalParts_append_normalParts _ hroot).symm
    _ = normalParts (normalParts a.parts ++ normalParts b.parts) :=
        (normalParts_normalParts_append (written_parts a) _).symm
    _ = (a.normal.join b.normal).normal.parts := by
        rw [parts_normal, normalParts_join hb', parts_normal, parts_normal]

/-! ## The forms -/

/-- What a normal path consists of: from the root names only, and elsewhere `..` some times and
names. -/
structure NormalForm (p : Path) : Prop where
  notHere : Part.here ∉ p.parts
  notUp : p.isAbsolute = true → Part.up ∉ p.parts
  way : p.isAbsolute = false → ∃ outs names, p.parts = List.replicate outs .up ++ names ∧
    ∀ q ∈ names, q.isName = true

theorem IsWay.exists_replicate {ps : List Part} (h : IsWay ps) :
    ∃ outs names, ps = List.replicate outs .up ++ names ∧ ∀ q ∈ names, q.isName = true := by
  obtain ⟨ups, names, rfl, hups, hnames⟩ := h
  exact ⟨ups.length, names, by rw [← List.eq_replicate_of_mem hups], fun q hq => (hnames q hq).1⟩

/-- What does not begin at the root is a way. -/
theorem isWay_normal {p : Path} (h : p.isAbsolute = false) : IsWay p.normal.parts := by
  obtain ⟨names, base, htaken, hnames, hbase⟩ := folded_of_written (written_parts p)
  have hparts : p.normal.parts = base.reverse ++ names.reverse := by
    rw [parts_normal, normalParts, htaken, List.reverse_append]
  rcases hbase with rfl | hups
  · have hroot : Part.root ∉ p.normal.parts :=
      notMem_root_iff.2 ((isAbsolute_normal_eq p).trans h)
    rw [hparts] at hroot
    exact absurd List.mem_cons_self hroot
  · refine ⟨base.reverse, names.reverse, hparts, ?_, ?_⟩
    · intro q hq
      exact hups q (List.mem_reverse.1 hq)
    · intro q hq
      exact hnames q (List.mem_reverse.1 hq)

theorem normalForm_normal (p : Path) : NormalForm p.normal := by
  cases h : p.isAbsolute with
  | true =>
    have habs : p.normal.isAbsolute = true := isAbsolute_normal h
    obtain ⟨names, hnames, hparts⟩ := rooted_normal h
    refine ⟨?_, fun _ => ?_, fun hrel => ?_⟩
    · rw [hparts]
      simpa using fun hmem => (hnames.written _ hmem).2.2 rfl
    · rw [hparts]
      simpa using fun hmem => absurd (hnames _ hmem).1 (by simp [Part.isName])
    · rw [habs] at hrel
      cases hrel
  | false =>
    have hway := isWay_normal h
    refine ⟨fun hmem => (hway.proper _ hmem).2.2 rfl, fun habs => ?_,
      fun _ => hway.exists_replicate⟩
    rw [isAbsolute_normal_eq, h] at habs
    cases habs

/-- A reference that does not begin with a slash is read as it is. -/
theorem within_eq {base : Path} {reference : String}
    (h : (Path.mk reference).isAbsolute = false) :
    base.within reference = (base.join ⟨reference⟩).normal := by
  have hdrop : Text.dropSlashes reference = reference := by
    rw [Text.dropSlashes, Text.onChars, ← String.toList_inj, String.toList_ofList]
    cases hchars : reference.toList with
    | nil => rfl
    | cons c cs =>
      have hc : c ≠ '/' := by simpa [isAbsolute, hchars] using h
      simp [hc]
  rw [within, hdrop]

theorem isAbsolute_of_isContained {p : Path} (h : isContained p.normal.parts = true) :
    p.isAbsolute = false := by
  rw [← isAbsolute_normal_eq, ← notMem_root_iff]
  intro hroot
  simp only [isContained, Bool.and_eq_true, List.all_eq_true] at h
  exact absurd (h.2 _ hroot) (by simp [Part.isName])

/-- A reference that comes to names leads strictly inside of a directory, by these names. -/
theorem inside_within {base : Path} {reference : String} (hbase : base.normal.same base = true)
    (h : isContained (Path.mk reference).normal.parts = true) :
    (base.within reference).parts = base.parts ++ (Path.mk reference).normal.parts ∧
      Inside base (base.within reference) := by
  have hparts : (base.within reference).parts = base.parts ++ (Path.mk reference).normal.parts := by
    rw [within_eq (isAbsolute_of_isContained h), parts_normal_join_of_isContained h,
      same_iff.1 hbase]
  simp only [isContained, Bool.and_eq_true, List.all_eq_true] at h
  refine ⟨hparts, _, fun q hq => ⟨h.2 q hq, proper_of_mem_parts hq⟩, ?_, hparts⟩
  simpa using h.1

/-- Making paths normal goes with reading one from within the other, needs to be done once, and
gives normal forms. A reference whose normal form has names only leads from a normal directory to
what has just these names behind the parts of the directory. -/
theorem normal_of_joined :
    (∀ a b : Path, b.isAbsolute = false → (a.join b).normal = (a.normal.join b.normal).normal) ∧
    (∀ p : Path, p.normal.normal = p.normal ∧ p.normal.isAbsolute = p.isAbsolute ∧
      NormalForm p.normal) ∧
    ∀ (base : Path) (reference : String), base.normal.same base = true →
      isContained (Path.mk reference).normal.parts = true →
      (base.within reference).parts = base.parts ++ (Path.mk reference).normal.parts ∧
        (base.within reference).isWithin base = true ∧
        (base.within reference).same base = false := by
  refine ⟨fun a b hb => normal_join hb, fun p => ?_, fun base reference hbase h => ?_⟩
  · exact ⟨normal_normal p, isAbsolute_normal_eq p, normalForm_normal p⟩
  · obtain ⟨hparts, hinside⟩ := inside_within hbase h
    exact ⟨hparts, hinside.isWithin, hinside.not_same⟩

/-- A path that leads out of the root and back, and a reference with all that a normal path has
not. -/
theorem normal_of_joined_dots :
    ((Path.mk "/w").join ⟨"x/../../../y/./z"⟩).normal = ⟨"/y/z"⟩ ∧
      (Path.mk "x/../../../y/./z").normal = ⟨"../../y/z"⟩ ∧
      (Path.mk "/w").normal.same ⟨"/w"⟩ = true ∧
      isContained (Path.mk "a/.././/b/c.md").normal.parts = true ∧
      ((Path.mk "/w").within "a/.././/b/c.md").parts
        = [.root, .name "w", .name "b", .name "c.md"] := by
  have hjoin := normal_of_joined.1 ⟨"/w"⟩ ⟨"x/../../../y/./z"⟩ (by decide)
  obtain ⟨hparts, _⟩ := normal_of_joined.2.2 ⟨"/w"⟩ "a/.././/b/c.md" (by decide) (by decide)
  exact ⟨hjoin.trans (by decide), by decide, by decide, by decide, hparts.trans (by decide)⟩

end AgentDocs.Path
