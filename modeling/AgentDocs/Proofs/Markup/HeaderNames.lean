import AgentDocs.Proofs.Markup.Blocks
import AgentDocs.Proofs.Template.Headed

/-! # The names of headers

A name is what stands in front of the first colon of a line, trimmed and then cut at a bracket. So
it is not empty, begins with no blank, and holds neither a colon nor a bracket; what is decoded and
bound afterwards keeps the names, but for those of variables, which go. A name is not trimmed again
after the cut: a blank in front of the bracket stays at its end. -/
namespace AgentDocs.Markup
open Text

/-! ## The name on a line -/

/-- The name that a text in front of a colon gives. -/
def nameOf (front : List Char) : List Char := (trim front).takeWhile (· != '[')

/-- A line is a header unless its name or its value is empty. -/
theorem Header.ofLine?_append {front : List Char} (h : ':' ∉ front) (value : List Char) :
    Header.ofLine? (front ++ ':' :: value)
      = if (nameOf front).isEmpty || (trim value).isEmpty then none
        else some ⟨nameOf front, trim value⟩ := by
  have hleft : ':' ∉ trimLeft front := fun hmem => h ((List.dropWhile_suffix _).subset hmem)
  have hsplit : splitOnce ':' (trim (front ++ ':' :: value))
      = some (trimLeft front, trimRight value) := by
    rw [trim_append_cons (by decide), splitOnce_append hleft]
  simp only [Header.ofLine?, hsplit, Option.bind_eq_bind, Option.bind_some, trim_trimLeft,
    trim_trimRight, nameOf]
  rfl

theorem Header.ofLine?_of_notMem {line : List Char} (h : ':' ∉ line) : Header.ofLine? line = none := by
  have hsplit := splitOnce_of_notMem fun hmem => h ((isInfix_trim line).subset hmem)
  simp [Header.ofLine?, hsplit]

/-- The line of a header, cut at its first colon. -/
theorem Header.exists_of_ofLine? {line : List Char} {h : Header} (hof : Header.ofLine? line = some h) :
    ∃ front value, line = front ++ ':' :: value ∧ ':' ∉ front ∧ nameOf front ≠ [] ∧
      h.name = nameOf front := by
  by_cases hcolon : ':' ∈ line
  · obtain ⟨front, value, rfl, hfront⟩ := List.eq_append_cons_of_mem hcolon
    rw [Header.ofLine?_append hfront] at hof
    split at hof
    · cases hof
    · rename_i hleft
      rw [Bool.or_eq_true, not_or] at hleft
      cases hof
      exact ⟨front, value, rfl, hfront, fun hnil => hleft.1 (List.isEmpty_iff.2 hnil), rfl⟩
  · rw [Header.ofLine?_of_notMem hcolon] at hof
    cases hof

/-- What the name on a line is like, its end aside. -/
structure IsName (name : List Char) : Prop where
  ne_nil : name ≠ []
  noColon : ':' ∉ name
  noBracket : '[' ∉ name
  noBlank : ∀ c ∈ name.head?, isBlank c = false

theorem isName_nameOf {front : List Char} (hcolon : ':' ∉ front) (hne : nameOf front ≠ []) :
    IsName (nameOf front) where
  ne_nil := hne
  noColon hmem := hcolon ((isInfix_trim front).subset ((List.takeWhile_prefix _).subset hmem))
  noBracket hmem := by simpa using List.mem_takeWhile_imp hmem
  noBlank c hc := by
    obtain ⟨rest, hrest⟩ := List.takeWhile_prefix (l := trim front) (· != '[')
    obtain ⟨more, hmore⟩ := List.head?_eq_some_iff.1 hc
    refine isBlank_of_head?_trim front c ?_
    rw [← hrest, ← nameOf, hmore]
    rfl

/-- Whether a text ends with a blank. -/
def endsBlank (text : List Char) : Bool := text.getLast?.any isBlank

/-- A name ends with a blank only if it was cut there. -/
theorem prefix_of_endsBlank {front : List Char} (h : endsBlank (nameOf front) = true) :
    nameOf front ++ ['['] <+: trimLeft front := by
  have hprefix : trim front <+: trimLeft front := isPrefix_dropTailWhile isBlank _
  have hcut := List.takeWhile_append_dropWhile (p := (· != '[')) (l := trim front)
  have hstop := List.head?_dropWhile_not (· != '[') (trim front)
  cases hrest : (trim front).dropWhile (· != '[') with
  | nil =>
    rw [hrest, List.append_nil, ← nameOf] at hcut
    obtain ⟨c, hlast, hblank⟩ := (Option.any_eq_true _ _).1 h
    rw [hcut] at hlast
    rw [isBlank_of_getLast?_trim front c hlast] at hblank
    cases hblank
  | cons c rest =>
    rw [hrest] at hstop
    obtain rfl : c = '[' := by simpa using hstop
    rw [hrest] at hcut
    refine List.IsPrefix.trans ⟨rest, ?_⟩ hprefix
    rw [List.append_assoc, List.singleton_append, nameOf, hcut]

/-! ## Indexed names -/

/-- The text in front of a colon where the name has an index, with blanks around the name. What
stands behind the bracket may be any text without a colon. -/
structure IndexedName where
  left : List Char
  name : List Char
  gap : List Char
  index : List Char
  blank_left : allBlank left = true
  blank_gap : allBlank gap = true
  trimmed : trim name = name
  noColon : ':' ∉ name ++ index
  noBracket : '[' ∉ name

namespace IndexedName

def text (n : IndexedName) : List Char := n.left ++ n.name ++ n.gap ++ '[' :: n.index

theorem notMem_name (n : IndexedName) : ':' ∉ n.name := fun h =>
  n.noColon (List.mem_append_left _ h)

theorem notMem_text (n : IndexedName) : ':' ∉ n.text := by
  have hleft := notMem_of_allBlank (c := ':') (by decide) n.blank_left
  have hgap := notMem_of_allBlank (c := ':') (by decide) n.blank_gap
  have hrest := n.noColon
  simp only [text, List.mem_append, List.mem_cons, not_or] at hrest ⊢
  exact ⟨⟨⟨hleft, hrest.1⟩, hgap⟩, by decide, hrest.2⟩

theorem nameOf_name (n : IndexedName) : nameOf n.name = n.name := by
  rw [nameOf, n.trimmed, List.takeWhile_eq_self_iff]
  exact fun c hc => bne_iff_ne.2 fun hbracket => n.noBracket (hbracket ▸ hc)

theorem trimLeft_front (n : IndexedName) :
    trimLeft (n.left ++ n.name ++ n.gap) = if n.name = [] then [] else n.name ++ n.gap := by
  rw [List.append_assoc, trimLeft_append_of_allBlank n.blank_left]
  split
  · rename_i hnil
    rw [hnil, List.nil_append, trimLeft, List.dropWhile_eq_nil_iff]
    exact List.all_eq_true.1 n.blank_gap
  · rename_i hne
    obtain ⟨c, name, hname⟩ := List.exists_cons_of_ne_nil hne
    have hc := isBlank_of_head?_trim n.name c (by rw [n.trimmed, hname]; rfl)
    rw [hname, trimLeft, List.cons_append, List.dropWhile_cons_of_neg (by simp [hc])]

/-- A name with an index keeps the blanks in front of the bracket. -/
theorem nameOf_text (n : IndexedName) :
    nameOf n.text = if n.name = [] then [] else n.name ++ n.gap := by
  have hbracket : '[' ∉ n.name ++ n.gap := List.not_mem_append n.noBracket
    (notMem_of_allBlank (by decide) n.blank_gap)
  have hfront : '[' ∉ trimLeft (n.left ++ n.name ++ n.gap) := by
    rw [trimLeft_front]
    split
    · exact List.not_mem_nil
    · exact hbracket
  rw [nameOf, text, trim_append_cons (by decide), List.takeWhile_append_of_pos, ← trimLeft_front]
  · simp
  · exact fun c hc => bne_iff_ne.2 fun heq => hfront (heq ▸ hc)

/-- An indexed name yields the header that the name alone yields, with the blanks in front of the
bracket at the end of its name. -/
theorem ofLine?_text (n : IndexedName) {value written : List Char} (h : trim written = trim value) :
    Header.ofLine? (n.text ++ ':' :: written)
      = (Header.ofLine? (n.name ++ ':' :: value)).map fun h => { h with name := h.name ++ n.gap } := by
  rw [Header.ofLine?_append n.notMem_text, Header.ofLine?_append n.notMem_name, nameOf_name,
    nameOf_text, h]
  by_cases hname : n.name = []
  · simp [hname]
  · cases hvalue : (trim value).isEmpty <;> simp [hname]

end IndexedName

/-! ## Documents -/

/-- Two lines that give the same header: where one has an index the other has none. -/
inductive SameHeader : List Char → List Char → Prop
  | same (line : List Char) : SameHeader line line
  | indexed (n : IndexedName) (value written : List Char) : n.gap = [] → trim written = trim value →
      SameHeader (n.text ++ ':' :: written) (n.name ++ ':' :: value)

theorem SameHeader.ofLine? {line other : List Char} (h : SameHeader line other) :
    Header.ofLine? line = Header.ofLine? other := by
  cases h with
  | same => rfl
  | indexed n _ _ hgap hvalue =>
    rw [n.ofLine?_text hvalue, hgap]
    simp

theorem filterMap_ofLine?_of_sameHeader {lines others : List (List Char)}
    (h : List.Forall₂ SameHeader lines others) :
    lines.filterMap Header.ofLine? = others.filterMap Header.ofLine? := by
  induction h with
  | nil => rfl
  | cons hline _ ih => rw [List.filterMap_cons, List.filterMap_cons, hline.ofLine?, ih]

theorem readHeaders_of_sameHeader {document other : List Char} {block block' : HeaderBlock}
    (hblock : headerBlock? document = some block) (hblock' : headerBlock? other = some block')
    (hlines : List.Forall₂ SameHeader block.lines block'.lines) (hbody : block.body = block'.body) :
    readHeaders document = readHeaders other := by
  simp only [readHeaders, hblock, hblock', filterMap_ofLine?_of_sameHeader hlines, hbody]

/-- Variables are dropped. -/
theorem isVariable_of_readHeaders {document : List Char} {headed : Headed}
    (hr : readHeaders document = .ok headed) : ∀ h ∈ headed.headers, h.isVariable = false := by
  unfold readHeaders at hr
  split at hr
  · cases hr
    exact List.forall_mem_nil _
  · obtain ⟨headers, -, hr⟩ := Except.exists_of_bind_ok hr
    cases hr
    intro h hmem
    have hname := List.mem_map_of_mem (f := Header.name) hmem
    rw [map_name_bindVariables] at hname
    obtain ⟨r, hr, hname⟩ := List.mem_map.1 hname
    have hplain := (List.mem_filter.1 hr).2
    rw [Header.isVariable, ← hname, ← Header.isVariable]
    simpa using hplain

theorem name_of_readHeaders {document : List Char} {headed : Headed}
    (hr : readHeaders document = .ok headed) {h : Header} (hmem : h ∈ headed.headers) :
    IsName h.name ∧ h.name.head? ≠ some '$' ∧
      (endsBlank h.name = true →
        ∃ line ∈ blockLines document, h.name ++ ['['] <+: trimLeft line) := by
  obtain ⟨line, hline, r, hof, hname⟩ := exists_line_of_readHeaders hr h hmem
  obtain ⟨front, value, rfl, hcolon, hne, hfront⟩ := Header.exists_of_ofLine? hof
  rw [← hname, hfront]
  refine ⟨isName_nameOf hcolon hne, ?_, fun hblank => ⟨_, hline, ?_⟩⟩
  · have hplain := isVariable_of_readHeaders hr h hmem
    rw [Header.isVariable, ← hname, hfront] at hplain
    simpa using hplain
  · rw [trimLeft_append_cons (by decide)]
    exact (prefix_of_endsBlank hblank).trans (List.prefix_append _ _)

/-- Every header has a proper name, which ends with a blank only where an index follows a blank; on a
line an index adds to the name just the blanks in front of it; so where there are none, headers read
the same with and without indices. -/
theorem names_of_headers (document : List Char) :
    (∀ headed, readHeaders document = .ok headed → ∀ h ∈ headed.headers,
      IsName h.name ∧ h.name.head? ≠ some '$' ∧
        (endsBlank h.name = true →
          ∃ line ∈ blockLines document, h.name ++ ['['] <+: trimLeft line)) ∧
    (∀ (n : IndexedName) (value written : List Char), trim written = trim value →
      Header.ofLine? (n.text ++ ':' :: written) = (Header.ofLine? (n.name ++ ':' :: value)).map
        fun h => { h with name := h.name ++ n.gap }) ∧
    ∀ other block block', headerBlock? document = some block → headerBlock? other = some block' →
      List.Forall₂ SameHeader block.lines block'.lines → block.body = block'.body →
      readHeaders document = readHeaders other :=
  ⟨fun _ hr _ hmem => name_of_readHeaders hr hmem, fun n _ _ => n.ofLine?_text,
    fun _ _ _ => readHeaders_of_sameHeader⟩

/-- A variable and two targets with indices, blanks around the first. -/
def indexedTargets : List Char :=
  "---\n$dir: out\n  target[0] : $dir/a.md\ntarget[1]:b.md \n---\nBody".toList

def plainTargets : List Char :=
  "---\n$dir: out\ntarget: $dir/a.md\ntarget: b.md\n---\nBody".toList

/-- A target with a blank in front of its index. -/
def spacedTarget : List Char := "---\ntarget [0]: a.md\n---\n".toList

theorem indexedTargets_as_plainTargets :
    (readHeaders indexedTargets = readHeaders plainTargets ∧
      (readHeaders plainTargets).map Headed.headers
        = .ok [⟨"target".toList, "out/a.md".toList⟩, ⟨"target".toList, "b.md".toList⟩]) ∧
    (readHeaders spacedTarget = .ok ⟨[⟨"target ".toList, "a.md".toList⟩], []⟩ ∧
      ∃ line ∈ blockLines spacedTarget, "target ".toList ++ ['['] <+: trimLeft line) := by
  have hread : readHeaders spacedTarget = .ok ⟨[⟨"target ".toList, "a.md".toList⟩], []⟩ := by
    decide +kernel
  refine ⟨⟨(names_of_headers indexedTargets).2.2 plainTargets
      ⟨.ruled, ["$dir: out", "  target[0] : $dir/a.md", "target[1]:b.md "].map String.toList,
        "Body".toList⟩
      ⟨.ruled, ["$dir: out", "target: $dir/a.md", "target: b.md"].map String.toList, "Body".toList⟩
      (by decide +kernel) (by decide +kernel) ?_ rfl, by decide +kernel⟩, hread,
    ((names_of_headers spacedTarget).1 _ hread _ List.mem_cons_self).2.2 (by decide)⟩
  let first : IndexedName := ⟨"  ".toList, "target".toList, [], "0] ".toList, by decide, by decide,
    by decide, by decide, by decide⟩
  let second : IndexedName := ⟨[], "target".toList, [], "1]".toList, by decide, by decide,
    by decide, by decide, by decide⟩
  exact .cons (.same _) (.cons (.indexed first " $dir/a.md".toList " $dir/a.md".toList rfl rfl)
    (.cons (.indexed second " b.md".toList "b.md ".toList rfl (by decide)) .nil))

/-- With a blank in front of its index a target is not found by its name. -/
theorem blank_before_index_kept :
    (readHeaders spacedTarget).map (fun headed => valuesOf "target".toList headed.headers) = .ok [] ∧
      (readHeaders "---\ntarget: a.md\n---\n".toList).map
        (fun headed => valuesOf "target".toList headed.headers) = .ok ["a.md".toList] ∧
      (readHeaders spacedTarget).map (fun headed => headed.headers.map fun h => endsBlank h.name)
        = .ok [true] := by
  decide +kernel

end AgentDocs.Markup
