import AgentDocs.Path.Basic
import AgentDocs.Proofs.Text.Fields

/-! # Parts of written paths

The parts of a path determine it up to spelling: a text written from parts has these parts again,
and reading a path from within a directory puts their parts one after the other. -/
namespace AgentDocs
open Text

/-- Whether a part can be read off a text: a name is not empty, has no slash, and is neither `.`
nor `..`. -/
def Part.Proper : Part → Prop
  | name text =>
    text.toList ≠ [] ∧ text.toList ≠ ['.'] ∧ text.toList ≠ ['.', '.'] ∧ '/' ∉ text.toList
  | _ => True

namespace Path

/-- Whether parts can be those of a path: all are proper, and only the first may be the root or
`.`. -/
def Written : List Part → Prop
  | [] => True
  | first :: rest => first.Proper ∧ ∀ p ∈ rest, p.Proper ∧ p ≠ .root ∧ p ≠ .here

theorem same_iff {p q : Path} : p.same q = true ↔ p.parts = q.parts := by simp [same]

theorem any_same_iff {p : Path} {paths : List Path} :
    paths.any (p.same ·) = true ↔ ∃ q ∈ paths, p.parts = q.parts := by
  simp only [List.any_eq_true, same_iff]

theorem parts_of_below? {p dir : Path} {below : List Part} (h : p.below? dir = some below) :
    p.parts = dir.parts ++ below := by
  unfold below? at h
  split at h
  · rename_i hwithin
    obtain ⟨rest, hrest⟩ := List.isPrefixOf_iff_prefix.1 hwithin
    rw [← hrest, List.drop_left] at h
    rw [← hrest, Option.some.inj h]
  · cases h

/-! ## Fields and parts -/

theorem proper_of_ofField? {front : Bool} {field : List Char} {p : Part} (hs : '/' ∉ field)
    (h : Part.ofField? front field = some p) :
    p.Proper ∧ p ≠ .root ∧ (front = false → p ≠ .here) := by
  unfold Part.ofField? at h
  split at h
  · cases h
  · split at h
    · cases h
      simp_all [Part.Proper]
    · cases h
  · cases h
    simp [Part.Proper]
  · cases h
    simp_all [Part.Proper]

theorem ofField?_text {p : Part} (hp : p.Proper) (front : Bool) (hr : p ≠ .root)
    (hh : p = .here → front = true) : Part.ofField? front p.text.toList = some p := by
  cases p with
  | root => exact absurd rfl hr
  | here => simp [Part.text, Part.ofField?, hh rfl]
  | up => simp [Part.text, Part.ofField?]
  | name text =>
    obtain ⟨h1, h2, h3, _⟩ := hp
    unfold Part.ofField?
    split <;> simp_all [Part.text]

theorem ofField?_false (field : List Char) :
    Part.ofField? false field = (Part.ofField? true field).filter (· != .here) := by
  unfold Part.ofField?
  split <;> rfl

/-- The parts of the fields behind the first one. -/
def inner (text : List Char) : List Part := (split '/' text).filterMap (Part.ofField? false)

theorem partsOf_slash (text : List Char) : partsOf ('/' :: text) = .root :: inner text := by
  obtain ⟨field, rest, h⟩ := List.exists_cons_of_ne_nil (split_ne_nil '/' text)
  simp [partsOf, split, inner, h]

/-- The parts of a text that does not begin with a slash. -/
theorem partsOf_eq_of_head {text first : List Char} {rest : List (List Char)}
    (h : split '/' text = first :: rest) (hf : first ≠ [] ∨ rest = []) :
    partsOf text =
      (Part.ofField? true first).toList ++ rest.filterMap (Part.ofField? false) := by
  unfold partsOf
  rw [h]
  split
  · simp_all
  · simp_all
  · simp_all

/-- Behind a slash the parts go on with those of the fields that follow. -/
theorem partsOf_append_slash {a : List Char} (b : List Char) (ha : a ≠ []) :
    partsOf (a ++ '/' :: b) = partsOf a ++ inner b := by
  obtain ⟨first, rest, hs⟩ := List.exists_cons_of_ne_nil (split_ne_nil '/' a)
  have hab := split_append_cons '/' a b
  rw [hs] at hab
  obtain ⟨field, more, hb⟩ := List.exists_cons_of_ne_nil (split_ne_nil '/' b)
  by_cases hf : first = []
  · subst hf
    cases rest with
    | nil =>
      have := join_split '/' a
      rw [hs] at this
      exact absurd this.symm ha
    | cons next rest =>
      rw [partsOf, hab, partsOf, hs]
      simp only [List.cons_append, inner, ← List.filterMap_append]
  · rw [List.cons_append] at hab
    rw [partsOf_eq_of_head hab (.inl hf), partsOf_eq_of_head hs (.inl hf), inner,
      List.filterMap_append, List.append_assoc]

theorem written_partsOf (text : List Char) : Written (partsOf text) := by
  have hmem : ∀ rest : List (List Char), (∀ f ∈ rest, f ∈ split '/' text) →
      ∀ p ∈ rest.filterMap (Part.ofField? false), p.Proper ∧ p ≠ .root ∧ p ≠ .here := by
    intro rest hr p hp
    obtain ⟨field, hf, hp⟩ := List.mem_filterMap.1 hp
    obtain ⟨h1, h2, h3⟩ := proper_of_ofField? (notMem_of_mem_split (hr field hf)) hp
    exact ⟨h1, h2, h3 rfl⟩
  unfold partsOf
  split
  · rename_i field rest hs
    refine ⟨trivial, hmem _ ?_⟩
    simp_all
  · rename_i first rest _ hs
    have hrest := hmem rest (by simp_all)
    cases hf : Part.ofField? true first with
    | some p =>
      have hfirst : '/' ∉ first := notMem_of_mem_split (hs ▸ List.mem_cons_self)
      exact ⟨(proper_of_ofField? hfirst hf).1, hrest⟩
    | none =>
      cases hp : rest.filterMap (Part.ofField? false) with
      | nil => simp [Written]
      | cons p ps =>
        rw [hp] at hrest
        exact ⟨(hrest p List.mem_cons_self).1, fun q hq => hrest q (List.mem_cons_of_mem _ hq)⟩
  · trivial

theorem written_parts (p : Path) : Written p.parts := written_partsOf _

theorem proper_of_mem_parts {p : Path} {part : Part} (h : part ∈ p.parts) : part.Proper := by
  have hw := written_parts p
  cases hp : p.parts with
  | nil => simp [hp] at h
  | cons first rest =>
    rw [hp] at h hw
    rcases List.mem_cons.1 h with rfl | h
    · exact hw.1
    · exact (hw.2 part h).1

theorem proper_of_fileName? {p : Path} {name : String} (h : p.fileName? = some name) :
    (Part.name name).Proper := by
  rw [fileName?] at h
  split at h
  · rename_i hlast
    cases h
    exact proper_of_mem_parts (List.mem_of_getLast? hlast)
  · cases h

/-! ## Texts of parts -/

theorem notMem_text {p : Part} (hp : p.Proper) (hr : p ≠ .root) : '/' ∉ p.text.toList := by
  cases p with
  | root => exact absurd rfl hr
  | here => simp [Part.text]
  | up => simp [Part.text]
  | name text => exact hp.2.2.2

theorem filterMap_text {ps : List Part} (h : ∀ p ∈ ps, p.Proper ∧ p ≠ .root ∧ p ≠ .here) :
    (ps.map fun p => p.text.toList).filterMap (Part.ofField? false) = ps := by
  induction ps with
  | nil => rfl
  | cons p ps ih =>
    obtain ⟨hp, hr, hh⟩ := h p List.mem_cons_self
    rw [List.map_cons, List.filterMap_cons_some (ofField?_text hp false hr (absurd · hh)),
      ih fun q hq => h q (List.mem_cons_of_mem _ hq)]

theorem split_joined {ps : List Part} (hne : ps ≠ []) (h : ∀ p ∈ ps, p.Proper ∧ p ≠ .root) :
    split '/' (Text.join ['/'] (ps.map fun p => p.text.toList))
      = ps.map fun p => p.text.toList := by
  refine split_join (by simpa using hne) fun f hf => ?_
  obtain ⟨p, hp, rfl⟩ := List.mem_map.1 hf
  exact notMem_text (h p hp).1 (h p hp).2

theorem toList_joined (ps : List Part) :
    (joined "/" (ps.map Part.text)).toList = Text.join ['/'] (ps.map fun p => p.text.toList) := by
  simp [joined, Function.comp_def]

theorem text_ne_nil {p : Part} (hp : p.Proper) : p.text.toList ≠ [] := by
  cases p with
  | name text => exact hp.1
  | _ => simp [Part.text]

/-- A path that is written from parts has these parts. -/
theorem parts_ofParts {ps : List Part} (h : Written ps) : (ofParts ps).parts = ps := by
  cases ps with
  | nil => rfl
  | cons first rest =>
    obtain ⟨hfirst, hrest⟩ := h
    by_cases hr : first = .root
    · subst hr
      have htext : (ofParts (.root :: rest)).text.toList =
          '/' :: Text.join ['/'] (rest.map fun p => p.text.toList) := by
        simp [ofParts, toList_joined]
      rw [parts, htext, partsOf_slash, inner]
      cases rest with
      | nil => rfl
      | cons next rest =>
        rw [split_joined (List.cons_ne_nil _ _) fun p hp => ⟨(hrest p hp).1, (hrest p hp).2.1⟩,
          filterMap_text hrest]
    · have htext : (ofParts (first :: rest)).text.toList =
          Text.join ['/'] ((first :: rest).map fun p => p.text.toList) := by
        rw [← toList_joined]
        cases first <;> first | exact absurd rfl hr | rfl
      have hsplit := split_joined (List.cons_ne_nil first rest) (by
        intro p hp
        rcases List.mem_cons.1 hp with rfl | hp
        · exact ⟨hfirst, hr⟩
        · exact ⟨(hrest p hp).1, (hrest p hp).2.1⟩)
      rw [parts, htext, partsOf_eq_of_head hsplit (.inl (text_ne_nil hfirst)),
        ofField?_text hfirst true hr fun _ => rfl, filterMap_text hrest]
      rfl

/-! ## Joining -/

theorem isAbsolute_iff {p : Path} : p.isAbsolute = true ↔ ∃ rest, p.parts = .root :: rest := by
  constructor
  · intro h
    cases ht : p.text.toList with
    | nil => simp [isAbsolute, ht] at h
    | cons c cs =>
      obtain rfl : c = '/' := by simpa [isAbsolute, ht] using h
      exact ⟨inner cs, by rw [parts, ht, partsOf_slash]⟩
  · rintro ⟨rest, h⟩
    cases ht : p.text.toList with
    | nil => simp [parts, ht, partsOf, split, Part.ofField?] at h
    | cons c cs =>
      by_cases hc : c = '/'
      · simp [isAbsolute, ht, hc]
      · obtain ⟨field, more, hs⟩ := List.exists_cons_of_ne_nil (split_ne_nil '/' cs)
        have hsplit : split '/' (c :: cs) = (c :: field) :: more := by simp [split, hc, hs]
        rw [parts, ht, partsOf_eq_of_head hsplit (.inl (List.cons_ne_nil _ _))] at h
        cases hf : Part.ofField? true (c :: field) with
        | none =>
          rw [hf] at h
          have hroot : Part.root ∈ more.filterMap (Part.ofField? false) := by
            rw [show more.filterMap _ = .root :: rest by simpa using h]
            exact List.mem_cons_self
          obtain ⟨g, hg, hp⟩ := List.mem_filterMap.1 hroot
          have hg : '/' ∉ g := notMem_of_mem_split (hsplit ▸ List.mem_cons_of_mem _ hg)
          exact absurd rfl (proper_of_ofField? hg hp).2.1
        | some p =>
          rw [hf] at h
          obtain rfl : p = .root := (List.cons.inj h).1
          have hfield : '/' ∉ c :: field := notMem_of_mem_split (hsplit ▸ List.mem_cons_self)
          exact absurd rfl (proper_of_ofField? hfield hf).2.1

theorem isAbsolute_of_parts {p q : Path} (h : p.parts = q.parts) (hp : p.isAbsolute = true) :
    q.isAbsolute = true := by
  rw [isAbsolute_iff] at hp ⊢
  rwa [← h]

/-- The parts of a path that does not begin at the root, without the `.` in front. -/
theorem inner_eq {text : List Char} (h : text.head? ≠ some '/') :
    inner text = (partsOf text).filter (· != .here) := by
  obtain ⟨first, rest, hs⟩ := List.exists_cons_of_ne_nil (split_ne_nil '/' text)
  have hhead : first ≠ [] ∨ rest = [] := by
    cases text with
    | nil => simp_all [split]
    | cons c cs =>
      have hc : c ≠ '/' := by simpa using h
      obtain ⟨field, more, hs'⟩ := List.exists_cons_of_ne_nil (split_ne_nil '/' cs)
      simp only [split, hc, ↓reduceIte, hs', List.cons.injEq] at hs
      exact .inl (hs.1 ▸ List.cons_ne_nil _ _)
  have hrest : (rest.filterMap (Part.ofField? false)).filter (· != .here) =
      rest.filterMap (Part.ofField? false) := by
    refine List.filter_eq_self.2 fun p hp => ?_
    obtain ⟨field, hf, hp⟩ := List.mem_filterMap.1 hp
    have hf : '/' ∉ field := notMem_of_mem_split (hs ▸ List.mem_cons_of_mem _ hf)
    simpa using (proper_of_ofField? hf hp).2.2 rfl
  rw [partsOf_eq_of_head hs hhead, List.filter_append, hrest, inner, hs]
  have hfirst := ofField?_false first
  cases hp : Part.ofField? true first with
  | none =>
    rw [hp] at hfirst
    simp [List.filterMap_cons_none hfirst]
  | some p =>
    by_cases hh : p = .here
    · have hnone : Part.ofField? false first = none := by simp [hfirst, hp, hh]
      simp [List.filterMap_cons_none hnone, hh]
    · have hsome : Part.ofField? false first = some p := by simp [hfirst, hp, Option.filter, hh]
      simp [List.filterMap_cons_some hsome, hh]

/-- A path that is read from within a directory continues its parts. -/
theorem parts_join {base p : Path} (hb : base.text ≠ "") (hp : p.isAbsolute = false) :
    (base.join p).parts = base.parts ++ p.parts.filter (· != .here) := by
  have hhead : p.text.toList.head? ≠ some '/' := by simpa [isAbsolute] using hp
  have hinner := inner_eq hhead
  by_cases hlast : base.text.toList.getLast? = some '/'
  · obtain ⟨b, hbase⟩ := List.getLast?_eq_some_iff.1 hlast
    have hjoin : (base.join p).text.toList = b ++ '/' :: p.text.toList := by
      simp [join, hp, hbase]
    rw [parts, parts, parts, ← hinner, hjoin, hbase]
    by_cases hnil : b = []
    · subst hnil
      simp [partsOf_slash, inner, split, Part.ofField?]
    · rw [partsOf_append_slash _ hnil, partsOf_append_slash _ hnil]
      simp [inner, split, Part.ofField?]
  · have hjoin : (base.join p).text.toList = base.text.toList ++ '/' :: p.text.toList := by
      simp [join, hp, hlast, hb]
    rw [parts, parts, parts, ← hinner, hjoin, partsOf_append_slash _ (by simpa using hb)]

end Path
end AgentDocs
