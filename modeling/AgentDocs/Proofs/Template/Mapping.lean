import AgentDocs.Proofs.Template.Headed

/-! # Mappings in which no header declares a file

A mapping with a key that declares a file is read by headers. A header takes its value from its own
line, a mapping may give the value of a key in other ways: on the lines below it, in braces, under
a key in quotes. What no header declares then is reported as if the document had no mapping. It is
told here of which documents this is so, and what becomes of all others with a mapping. -/
namespace AgentDocs

namespace Markup

theorem exists_decoded_of_decodeAll {raw headers : List Header}
    (hd : decodeAll raw = .ok headers) : ∀ r ∈ raw, ∃ these, r.decoded = .ok these := by
  induction raw generalizing headers with
  | nil => exact nofun
  | cons r raw ih =>
    obtain ⟨these, hthese, hd⟩ := Except.exists_of_bind_ok hd
    obtain ⟨others, hothers, _⟩ := Except.exists_of_bind_ok hd
    exact List.forall_mem_cons.2 ⟨⟨these, hthese⟩, ih hothers⟩

/-- Whether the header on a line is written as a list without items. -/
def listsNothing (line : List Char) : Bool :=
  (Header.ofLine? line).any fun h => match h.decoded with
    | .ok [] => true
    | _ => false

end Markup

namespace Template
open Markup

/-- What declares a file is no variable. -/
theorem isVariable_of_declaresFile {h : Header}
    (hfile : declaresFile (String.ofList h.name) = true) : h.isVariable = false := by
  obtain ⟨name, value⟩ := h
  cases name with
  | nil => rfl
  | cons c name =>
    refine Bool.eq_false_iff.2 ?_
    intro hc
    obtain rfl : c = '$' := by simpa [Header.isVariable] using hc
    rcases Bool.or_eq_true_iff.1 hfile with htarget | hcommand
    · have htext := congrArg String.toList (beq_iff_eq.1 htarget)
      simp [targetName] at htext
    · rw [String.toList_ofList] at hcommand
      cases hcommand

theorem any_bindVariables_iff {headers : List Header} :
    ((bindVariables headers).any fun h => declaresFile (String.ofList h.name)) = true ↔
      ∃ h ∈ headers, declaresFile (String.ofList h.name) = true := by
  have hnames : (bindVariables headers).any (fun h => declaresFile (String.ofList h.name))
      = ((bindVariables headers).map Header.name).any fun name =>
          declaresFile (String.ofList name) := by
    rw [List.any_map]
    rfl
  rw [hnames, map_name_bindVariables, List.any_map, List.any_filter, List.any_eq_true]
  refine exists_congr fun h => and_congr_right fun _ => ?_
  rw [Bool.and_eq_true, Bool.not_eq_true']
  exact and_iff_right_of_imp isVariable_of_declaresFile

/-- A header declares a file exactly if a line does so, unless its value is a list without items. -/
theorem any_declaresFile_iff {document : List Char} {headed : Headed}
    (hr : readHeaders document = .ok headed) :
    (headed.headers.any fun h => declaresFile (String.ofList h.name)) = true ↔
      ∃ line ∈ blockLines document, lineDeclares line = true ∧ listsNothing line = false := by
  unfold readHeaders at hr
  split at hr
  · rename_i hnone
    cases hr
    simp [blockLines, hnone]
  · rename_i block hblock
    obtain ⟨headers, hdecode, hr⟩ := Except.exists_of_bind_ok hr
    cases hr
    have hlines : blockLines document = block.lines := by simp [blockLines, hblock]
    rw [hlines, any_bindVariables_iff]
    constructor
    · rintro ⟨h, hh, hfile⟩
      obtain ⟨r, hr, these, hthese, hmem⟩ := (mem_decodeAll hdecode).1 hh
      obtain ⟨line, hline, hof⟩ := List.mem_filterMap.1 hr
      rw [name_of_mem_decoded hthese h hmem] at hfile
      refine ⟨line, hline, by simp [lineDeclares, hof, hfile], ?_⟩
      cases these with
      | nil => cases hmem
      | cons first these => simp [listsNothing, hof, hthese]
    · rintro ⟨line, hline, hdeclares, hlists⟩
      obtain ⟨r, hof, hfile⟩ := (Option.any_eq_true _ _).1 hdeclares
      have hr := List.mem_filterMap.2 ⟨line, hline, hof⟩
      obtain ⟨these, hthese⟩ := exists_decoded_of_decodeAll hdecode r hr
      cases these with
      | nil => simp [listsNothing, hof, hthese] at hlists
      | cons h these =>
        have hmem : h ∈ h :: these := List.mem_cons_self
        refine ⟨h, (mem_decodeAll hdecode).2 ⟨r, hr, _, hthese, hmem⟩, ?_⟩
        rwa [name_of_mem_decoded hthese h hmem]

/-- Whether a document with a mapping is reported as one without: a key of the mapping declares a
file, but no header does. -/
structure Undeclared (document : List Char) (data : List (String × Json)) : Prop where
  key : keyDeclares data = true
  read : ∃ headed, readHeaders document = .ok headed
  lines : ∀ line ∈ blockLines document, lineDeclares line = true → listsNothing line = true

/-- A mapping in which no key declares a file is read as directives. -/
theorem classify_of_directives (source : Path.Placed) {document : List Char} {f : Frontmatter}
    (hread : readFrontmatter document = .ok (some f)) (hdata : f.data ≠ [])
    (hkey : keyDeclares f.data = false) :
    (∃ t, classify source document = .ok t) ∨
      ∃ v, Spec.read f.data = .error v ∧
        classify source document = .error (.ofSchema source.relative v) := by
  have hcond : (!f.data.isEmpty && !keyDeclares f.data) = true := by
    rw [hkey, List.isEmpty_eq_false_iff.2 hdata]
    rfl
  have hclassify : classify source document = (do
      let spec ← (Spec.read f.data).mapError (.ofSchema source.relative)
      return ⟨source, stripHeaders document, spec.priority, .directives spec⟩) := by
    unfold classify
    rw [hread]
    exact if_pos hcond
  rw [hclassify]
  cases hspec : Spec.read f.data with
  | ok spec => exact .inl ⟨_, rfl⟩
  | error v => exact .inr ⟨v, rfl, rfl⟩

/-- A mapping with a key that declares a file gives way to the headers. -/
theorem classify_of_keyDeclares (source : Path.Placed) {document : List Char} {f : Frontmatter}
    (hread : readFrontmatter document = .ok (some f)) (hkey : keyDeclares f.data = true) :
    (∃ e, readHeaders document = .error e ∧
      classify source document = .error (.ofHeader source.relative e)) ∨
    ∃ headed, readHeaders document = .ok headed ∧
      if headed.headers.any fun h => declaresFile (String.ofList h.name) then
        classify source document
          = .ok ⟨source, headed.body, lenientPriority f.data, .headers headed.headers⟩
      else classify source document = .error (.missingFrontmatter source.relative) := by
  have hany : (f.data.any fun e => declaresFile e.1) = true := hkey
  have hblock : ∃ block, headerBlock? document = some block := by
    unfold readFrontmatter at hread
    split at hread
    · rename_i h
      exact ⟨_, h⟩
    · cases hread
  obtain ⟨block, hblock⟩ := hblock
  unfold classify
  rw [hread]
  cases hheaded : readHeaders document with
  | error e =>
    refine .inl ⟨e, rfl, ?_⟩
    simp [dataOf, hany, ofHeaders, hblock, hheaded, Except.mapError, bind, Except.bind]
  | ok headed =>
    refine .inr ⟨headed, rfl, ?_⟩
    cases hfile : headed.headers.any fun h => declaresFile (String.ofList h.name) with
    | true =>
      simp [dataOf, hany, ofHeaders, hblock, hheaded, hfile, Except.mapError, bind, Except.bind,
        pure, Except.pure]
    | false =>
      simp [dataOf, hany, ofHeaders, hblock, hheaded, hfile, Except.mapError, bind, Except.bind,
        pure, Except.pure]

/-- A document with a mapping that is not empty is reported as one without a mapping exactly if a
key of it declares a file and no header does. Otherwise it is a template, or the error says what is
wrong with the mapping or with a header. -/
theorem classify_of_mapping (source : Path.Placed) {document : List Char} {f : Frontmatter}
    (hread : readFrontmatter document = .ok (some f)) (hdata : f.data ≠ []) :
    (classify source document = .error (.missingFrontmatter source.relative) ↔
      Undeclared document f.data) ∧
    (¬Undeclared document f.data →
      (∃ t, classify source document = .ok t) ∨
      (∃ v, Spec.read f.data = .error v ∧
        classify source document = .error (.ofSchema source.relative v)) ∨
      ∃ e, readHeaders document = .error e ∧
        classify source document = .error (.ofHeader source.relative e)) := by
  cases hkey : keyDeclares f.data with
  | false =>
    have hnot : ¬Undeclared document f.data := fun h => nomatch hkey.symm.trans h.key
    obtain ⟨t, ht⟩ | ⟨v, hv, herror⟩ := classify_of_directives source hread hdata hkey
    · exact ⟨iff_of_false (by simp [ht]) hnot, fun _ => .inl ⟨t, ht⟩⟩
    · exact ⟨iff_of_false (by simp [herror]) hnot, fun _ => .inr (.inl ⟨v, hv, herror⟩)⟩
  | true =>
    obtain ⟨e, he, herror⟩ | ⟨headed, hheaded, h⟩ :=
      classify_of_keyDeclares source hread hkey
    · have hnot : ¬Undeclared document f.data := fun h => by
        obtain ⟨headed, hheaded⟩ := h.read
        cases he.symm.trans hheaded
      exact ⟨iff_of_false (by simp [herror]) hnot, fun _ => .inr (.inr ⟨e, he, herror⟩)⟩
    · split at h
      · rename_i hany
        obtain ⟨line, hline, hdeclares, hlists⟩ := (any_declaresFile_iff hheaded).1 hany
        have hnot : ¬Undeclared document f.data := fun h =>
          nomatch hlists.symm.trans (h.lines line hline hdeclares)
        exact ⟨iff_of_false (by simp [h]) hnot, fun _ => .inl ⟨_, h⟩⟩
      · rename_i hany
        have hundeclared : Undeclared document f.data := by
          refine ⟨hkey, ⟨headed, hheaded⟩, fun line hline hdeclares => ?_⟩
          by_contra hlists
          exact hany ((any_declaresFile_iff hheaded).2
            ⟨line, hline, hdeclares, Bool.eq_false_iff.2 hlists⟩)
        exact ⟨iff_of_true h hundeclared, fun hnot => absurd hundeclared hnot⟩

/-- The keys of the mapping of a document, if it has one. -/
def keysOf (document : List Char) : List String := (dataOf (readFrontmatter document)).map (·.1)

theorem exists_frontmatter_of_keysOf (document : List Char) (h : keysOf document ≠ []) :
    ∃ f, readFrontmatter document = .ok (some f) ∧ f.data ≠ [] := by
  rw [keysOf, ne_eq, List.map_eq_nil_iff] at h
  unfold dataOf at h
  split at h
  · rename_i f hf
    exact ⟨f, hf, h⟩
  · exact absurd rfl h

/-- Two targets, each on a line of its own. -/
def listedTargets : List Char := "---\ntarget:\n  - a.md\n  - b.md\n---\nBody".toList

theorem mapping_of_two_documents :
    (∃ f, readFrontmatter listedTargets = .ok (some f) ∧ f.data ≠ [] ∧
      Undeclared listedTargets f.data) ∧
    ∃ f, readFrontmatter twoTargets = .ok (some f) ∧ f.data ≠ [] ∧
      ¬Undeclared twoTargets f.data := by
  constructor
  · obtain ⟨f, hread, hdata⟩ :=
      exists_frontmatter_of_keysOf listedTargets (by decide +kernel)
    have hmissing : (classify atSource listedTargets).map isHeaded
        = .error (.missingFrontmatter "docs-src/a.md") := by decide +kernel
    cases hclassify : classify atSource listedTargets with
    | ok t =>
      rw [hclassify] at hmissing
      cases hmissing
    | error e =>
      rw [hclassify] at hmissing
      cases hmissing
      exact ⟨f, hread, hdata, (classify_of_mapping atSource hread hdata).1.1 hclassify⟩
  · obtain ⟨f, hread, hdata⟩ :=
      exists_frontmatter_of_keysOf twoTargets (by decide +kernel)
    refine ⟨f, hread, hdata, fun h => ?_⟩
    have hmissing := (classify_of_mapping atSource hread hdata).1.2 h
    have hheaded : (classify atSource twoTargets).map isHeaded = .ok true := by decide +kernel
    rw [hmissing] at hheaded
    cases hheaded

/-- Targets listed below the key, one below it, one in braces, one under a key in quotes, none. -/
def unreadTargets : List (List Char) :=
  [listedTargets, "---\ntarget:\n  a.md\n---\nBody".toList,
    "---\n\x7btarget: a.md\x7d\n---\nBody".toList, "---\n\"target\": a.md\n---\nBody".toList,
    "---\ntarget: []\n---\nBody".toList]

/-- All of these have a mapping with the key `target`, and are reported as documents without one. -/
theorem unread_targets_missing :
    unreadTargets.map keysOf = List.replicate 5 ["target"] ∧
      (unreadTargets.map fun document => (classify atSource document).map isHeaded)
        = List.replicate 5 (.error (.missingFrontmatter "docs-src/a.md")) := by
  decide +kernel

end Template
end AgentDocs
