import AgentDocs.Proofs.Effect
import AgentDocs.Template.Classify

/-! # Which templates are read by their headers

Headers are read line by line, blanks around a line aside; a mapping is read by its own keys. A
template is read by its headers only if one of its lines declares a file, and a mapping that is
not empty must declare one by a key of its own as well: what only stands inside of another value
of the mapping does not count. -/
namespace AgentDocs

namespace Markup

/-! ## The names of headers -/

theorem name_of_scalarText {h d : Header} {v : Json}
    (hv : (scalarText h.name v).map (Header.mk h.name) = .ok d) : d.name = h.name := by
  cases ht : scalarText h.name v with
  | error e =>
    rw [ht] at hv
    cases hv
  | ok text =>
    rw [ht] at hv
    cases hv
    rfl

theorem name_of_mem_decoded {h : Header} {these : List Header} (hd : h.decoded = .ok these) :
    ∀ d ∈ these, d.name = h.name := by
  intro d hmem
  unfold Header.decoded at hd
  split at hd
  · split at hd
    · cases hd
    · obtain ⟨_, _, hv⟩ := Except.exists_of_mem_mapM hd d hmem
      exact name_of_scalarText hv
    · rename_i v _ _
      cases ht : scalarText h.name v with
      | error e =>
        rw [ht] at hd
        cases hd
      | ok text =>
        rw [ht] at hd
        cases hd
        rw [List.mem_singleton.1 hmem]
  · cases hd
    rw [List.mem_singleton.1 hmem]

theorem mem_decodeAll {raw headers : List Header} (hd : decodeAll raw = .ok headers) {h : Header} :
    h ∈ headers ↔ ∃ r ∈ raw, ∃ these, r.decoded = .ok these ∧ h ∈ these := by
  induction raw generalizing headers with
  | nil =>
    cases hd
    simp
  | cons r raw ih =>
    obtain ⟨these, hthese, hd⟩ := Except.exists_of_bind_ok hd
    obtain ⟨others, hothers, hd⟩ := Except.exists_of_bind_ok hd
    cases hd
    rw [List.mem_append, ih hothers, List.exists_mem_cons_iff]
    simp only [hthese, Except.ok.injEq, exists_eq_left']

theorem exists_name_of_mem_decodeAll {raw headers : List Header}
    (hd : decodeAll raw = .ok headers) : ∀ h ∈ headers, ∃ r ∈ raw, r.name = h.name := by
  intro h hmem
  obtain ⟨r, hr, these, hthese, hin⟩ := (mem_decodeAll hd).1 hmem
  exact ⟨r, hr, (name_of_mem_decoded hthese h hin).symm⟩

/-- Binding variables changes values only. -/
theorem map_name_bindVariables (headers : List Header) :
    (bindVariables headers).map Header.name
      = (headers.filter fun h => !h.isVariable).map Header.name := by
  have hfold : ∀ vars rest : List Header,
      (vars.foldl (fun rest v => rest.map v.bind) rest).map Header.name
        = rest.map Header.name := by
    intro vars
    induction vars with
    | nil => exact fun rest => rfl
    | cons v vars ih =>
      intro rest
      rw [List.foldl_cons, ih, List.map_map]
      rfl
  exact hfold _ _

theorem exists_name_of_mem_bindVariables (headers : List Header) :
    ∀ h ∈ bindVariables headers, ∃ r ∈ headers, r.name = h.name := by
  intro h hmem
  have hname := List.mem_map_of_mem (f := Header.name) hmem
  rw [map_name_bindVariables] at hname
  obtain ⟨r, hr, hname⟩ := List.mem_map.1 hname
  exact ⟨r, (List.mem_filter.1 hr).1, hname⟩

/-- The lines of the header block, none without one. -/
def blockLines (document : List Char) : List (List Char) :=
  ((headerBlock? document).map HeaderBlock.lines).getD []

/-- Every header has the name that a line of the block gives it. -/
theorem exists_line_of_readHeaders {document : List Char} {headed : Headed}
    (hr : readHeaders document = .ok headed) :
    ∀ h ∈ headed.headers, ∃ line ∈ blockLines document, ∃ r,
      Header.ofLine? line = some r ∧ r.name = h.name := by
  unfold readHeaders at hr
  split at hr
  · cases hr
    simp
  · rename_i block hblock
    obtain ⟨headers, hdecode, hr⟩ := Except.exists_of_bind_ok hr
    cases hr
    intro h hmem
    obtain ⟨d, hd, hname⟩ := exists_name_of_mem_bindVariables headers h hmem
    obtain ⟨r, hr, hname'⟩ := exists_name_of_mem_decodeAll hdecode d hd
    obtain ⟨line, hline, hof⟩ := List.mem_filterMap.1 hr
    exact ⟨line, by simpa [blockLines, hblock] using hline, r, hof, hname'.trans hname⟩

end Markup

namespace Template
open Markup

/-- Whether a line declares a file; blanks around it do not count. -/
def lineDeclares (line : List Char) : Bool :=
  (Header.ofLine? line).any fun h => declaresFile (String.ofList h.name)

/-- Whether a key of a mapping declares a file. -/
def keyDeclares (data : List (String × Json)) : Bool := data.any fun e => declaresFile e.1

/-- Whether a template is read by its headers. -/
def isHeaded (t : Template) : Bool :=
  match t.kind with
  | .headers _ => true
  | .directives _ => false

theorem lineDeclares_of_any {document : List Char} {headed : Headed}
    (hr : readHeaders document = .ok headed)
    (hany : (headed.headers.any fun h => declaresFile (String.ofList h.name)) = true) :
    ∃ line ∈ blockLines document, lineDeclares line = true := by
  obtain ⟨h, hmem, hfile⟩ := List.any_eq_true.1 hany
  obtain ⟨line, hline, r, hof, hname⟩ := exists_line_of_readHeaders hr h hmem
  refine ⟨line, hline, ?_⟩
  simp [lineDeclares, hof, hname, hfile]

/-- Reading headers fails, or gives a template exactly if a header declares a file. -/
theorem ofHeaders_cases (source : Path.Placed) (document : List Char) (priority : Priority) :
    (ofHeaders source document priority = .ok none) ∨
    (∃ e, readHeaders document = .error e ∧
      ofHeaders source document priority = .error (.ofHeader source.relative e)) ∨
    (∃ line ∈ blockLines document, lineDeclares line = true) ∧
      ∃ headed, readHeaders document = .ok headed ∧
        ofHeaders source document priority
          = .ok (some ⟨source, headed.body, priority, .headers headed.headers⟩) := by
  unfold ofHeaders
  split
  · exact .inl rfl
  · cases hr : readHeaders document with
    | error e => exact .inr (.inl ⟨e, rfl, rfl⟩)
    | ok headed =>
      cases hany : headed.headers.any fun h => declaresFile (String.ofList h.name) with
      | false => exact .inl (by simp [Except.mapError, hany, bind, Except.bind, pure, Except.pure])
      | true =>
        exact .inr (.inr ⟨lineDeclares_of_any hr hany, headed, rfl, by
          simp [Except.mapError, hany, bind, Except.bind, pure, Except.pure]⟩)

/-- A template that is read by its headers is declared by a line, and by a key of the mapping if
that is not empty. -/
theorem declared_of_isHeaded {source : Path.Placed} {document : List Char} {t : Template}
    (h : classify source document = .ok t) (ht : t.isHeaded = true) :
    (∃ line ∈ blockLines document, lineDeclares line = true) ∧
      (dataOf (readFrontmatter document) ≠ [] →
        keyDeclares (dataOf (readFrontmatter document)) = true) := by
  unfold classify at h
  dsimp only at h
  split at h
  · obtain ⟨spec, _, h⟩ := Except.exists_of_bind_ok h
    cases h
    cases ht
  · rename_i hdata
    obtain ⟨found, hfound, h⟩ := Except.exists_of_bind_ok h
    obtain hnone | ⟨_, _, herror⟩ | ⟨hline, _⟩ :=
      ofHeaders_cases source document (lenientPriority (dataOf (readFrontmatter document)))
    · -- without a header that declares a file only errors are left
      rw [hnone] at hfound
      cases hfound
      dsimp only at h
      split at h <;> cases h
    · rw [herror] at hfound
      cases hfound
    · refine ⟨hline, fun hne => ?_⟩
      simpa [keyDeclares, hne] using hdata

/-- A block that holds no mapping and in which no line declares a file is refused. -/
theorem classify_error {source : Path.Placed} {document : List Char} {e : FrontmatterError}
    (hread : readFrontmatter document = .error e)
    (hline : ∀ line ∈ blockLines document, lineDeclares line = false) :
    classify source document = .error (.ofFrontmatter source.relative e) ∨
      ∃ e', readHeaders document = .error e' ∧
        classify source document = .error (.ofHeader source.relative e') := by
  unfold classify
  rw [hread]
  obtain hnone | ⟨e', he', herror⟩ | ⟨⟨line, hmem, hdeclares⟩, _⟩ :=
    ofHeaders_cases source document (lenientPriority [])
  · refine .inl ?_
    simp [dataOf, hnone, bind, Except.bind]
  · refine .inr ⟨e', he', ?_⟩
    simp [dataOf, herror, bind, Except.bind]
  · rw [hline line hmem] at hdeclares
    cases hdeclares

/-- What the lines of a block and the keys of its mapping decide, for every document. -/
theorem classify_by_headers (source : Path.Placed) (document : List Char) :
    (∀ t, classify source document = .ok t → t.isHeaded = true →
      (∃ line ∈ blockLines document, lineDeclares line = true) ∧
        (dataOf (readFrontmatter document) ≠ [] →
          keyDeclares (dataOf (readFrontmatter document)) = true)) ∧
    ∀ e, readFrontmatter document = .error e →
      (∀ line ∈ blockLines document, lineDeclares line = false) →
        classify source document = .error (.ofFrontmatter source.relative e) ∨
          ∃ e', readHeaders document = .error e' ∧
            classify source document = .error (.ofHeader source.relative e') :=
  ⟨fun _ => declared_of_isHeaded, fun _ => classify_error⟩

/-- A template at `/work/docs-src/a.md`. -/
def atSource : Path.Placed := ⟨⟨"/work/docs-src/a.md"⟩, "docs-src/a.md"⟩

/-- Two targets, the second one inside of a mapping. -/
def twoTargets : List Char :=
  "---\ntarget: a.md\noutput:\n  target: b.md\n---\nBody".toList

/-- A value with a second colon, which makes the block no mapping. -/
def secondColon : List Char := "---\ndescription: Deploy: staging\n---\nBody".toList

theorem two_targets_second_colon :
    ((∃ line ∈ blockLines twoTargets, lineDeclares line = true) ∧
      (dataOf (readFrontmatter twoTargets) ≠ [] →
        keyDeclares (dataOf (readFrontmatter twoTargets)) = true)) ∧
    (classify atSource secondColon = .error (.ofFrontmatter "docs-src/a.md" .invalidYaml) ∨
      ∃ e', readHeaders secondColon = .error e' ∧
        classify atSource secondColon = .error (.ofHeader "docs-src/a.md" e')) := by
  constructor
  · have hheaded : (classify atSource twoTargets).map isHeaded = .ok true := by decide +kernel
    cases h : classify atSource twoTargets with
    | error e =>
      rw [h] at hheaded
      cases hheaded
    | ok t =>
      rw [h] at hheaded
      exact (classify_by_headers atSource twoTargets).1 t h (Except.ok.inj hheaded)
  · have herror : (readFrontmatter secondColon).map (fun _ => ()) = .error .invalidYaml := by
      decide +kernel
    cases h : readFrontmatter secondColon with
    | error e =>
      rw [h] at herror
      cases herror
      exact (classify_by_headers atSource secondColon).2 _ h (by decide +kernel)
    | ok _ =>
      rw [h] at herror
      cases herror

/-- Whether a line begins with a blank. -/
def isIndented (line : List Char) : Bool := line.head?.any Text.isBlank

/-- A target inside of a mapping, under a value with a second colon. -/
def nestedTarget : List Char :=
  "---\ndescription: Deploy: staging\noutput:\n  target: out.md\n---\nBody".toList

/-- A mapping that is indented as a whole. -/
def indentedMapping : List Char := "---\n  target: out.md\n---\nBody".toList

/-- Indentation does not count: the target of a mapping that is indented as a whole is a header, and
so is one inside of another value where the block is no mapping. -/
theorem indented_targets_are_headers :
    ((classify atSource indentedMapping).map isHeaded = .ok true ∧
      ∀ line ∈ blockLines indentedMapping, isIndented line = false → lineDeclares line = false) ∧
    ((classify atSource nestedTarget).map isHeaded = .ok true ∧
      (readFrontmatter nestedTarget).map (fun _ => ()) = .error .invalidYaml ∧
      ∀ line ∈ blockLines nestedTarget, isIndented line = false → lineDeclares line = false) := by
  decide +kernel

end Template
end AgentDocs
