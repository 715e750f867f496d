import AgentDocs.Proofs.Yaml.Lines
import AgentDocs.Yaml.Decode

/-! # Reading back written fields

The tokens of written fields build one mapping of scalars, and every scalar stands for the string it
was written for: a plain one because a text that means something else is never written plain. -/
namespace AgentDocs.Yaml

namespace Lexer

/-! ## Tokens -/

/-- An entry has a letter, its colon, the space behind it and its value. -/
theorem length_fieldsText {tail : List Char} {fields : List (String × String)}
    (hnames : ∀ field ∈ fields, IsName field.1) :
    3 * fields.length ≤ (fieldsText tail fields).length := by
  induction fields with
  | nil => exact Nat.zero_le _
  | cons field rest ih =>
    obtain ⟨hname, hnames⟩ := List.forall_mem_cons.1 hnames
    have hpos : 0 < field.1.toList.length := List.length_pos_iff.2 (ne_nil_of_plain hname.2.1)
    have hrest := ih hnames
    simp only [fieldsText, List.length_append, List.length_cons]
    split
    · subst_vars
      simp
      omega
    · simp only [List.length_append]
      omega

/-- The lexer reads a text of fields to its end. -/
theorem run_fieldsText {tail : List Char} {fields : List (String × String)} (hne : fields ≠ [])
    (hnames : ∀ field ∈ fields, IsName field.1)
    (hlast : ∀ last ∈ fields.getLast?, Closes last.2.toList tail []) :
    (start (fieldsText tail fields)).run ((fieldsText tail fields).length + 2)
      = some (.blockMappingStart :: (fields.flatMap entryTokens ++ [.blockEnd])).toArray := by
  have hcomes : Comes (start (fieldsText tail fields)) [] false (fieldsText tail fields) :=
    @comes_line ⟨fieldsText tail fields, 0, 0, 0⟩ [] false true (startsLetter_fieldsText hnames)
      fun _ => ⟨rfl, rfl⟩
  have hlength := @length_fieldsText tail fields hnames
  obtain ⟨field, rest, rfl⟩ := List.exists_cons_of_ne_nil hne
  obtain ⟨hname, hnames⟩ := List.forall_mem_cons.1 hnames
  obtain ⟨t, hrun, ht⟩ := run_entry hname
    (closes_fieldsText hnames fun hnil => hlast field (by simp [hnil])) hcomes
  obtain ⟨n, hn, hmany⟩ : ∃ n, (fieldsText tail (field :: rest)).length + 2 = n + 3 ∧
      3 * rest.length < n := by
    refine ⟨(fieldsText tail (field :: rest)).length - 1, ?_, ?_⟩ <;> simp at hlength <;> omega
  rw [hn, hrun, run_fields hnames ?_ ht hmany]
  · rfl
  · intro last hmem
    cases rest with
    | nil => cases hmem
    | cons next rest => exact hlast last (by simpa using hmem)

/-- The tokens of a text of fields. -/
theorem tokens?_fieldsText {tail : List Char} {fields : List (String × String)} (hne : fields ≠ [])
    (hnames : ∀ field ∈ fields, IsName field.1) (htail : Printable tail)
    (hlast : ∀ last ∈ fields.getLast?, Closes last.2.toList tail []) :
    tokens? (fieldsText tail fields)
      = some (.blockMappingStart :: (fields.flatMap entryTokens ++ [.blockEnd])) := by
  have hallowed : (fieldsText tail fields).all isAllowed = true :=
    List.all_eq_true.2 fun c hc => isAllowed_of_isPrintable (printable_fieldsText hnames htail c hc)
  have hmark : ∀ rest, fieldsText tail fields ≠ '\uFEFF' :: rest := fun rest heq => by
    have hx := startsLetter_fieldsText hnames '\uFEFF' (by rw [heq]; rfl)
    revert hx
    decide
  rw [tokens?, if_pos hallowed, run_fieldsText hne hnames hlast]
  · rfl
  · exact hmark

end Lexer

/-! ## Building -/

namespace Build
open Lexer

/-- The node of a value. -/
def valueNode (text : List Char) : Node := .scalar (String.ofList text) (styleOf text == .plain) none

/-- The entry of a mapping that a field is. -/
def entryNodes (field : String × String) : Node × Node :=
  (.scalar field.1 true none, valueNode field.2.toList)

theorem blockPairs_end (fuel : Nat) (b : Builder) (after : List Token) :
    blockPairs (fuel + 1) { b with tokens := .blockEnd :: after }
      = some ([], { b with tokens := after }) :=
  rfl

/-- An entry gives a pair of scalars, and nothing is anchored. -/
theorem blockPairs_entry (fuel : Nat) (b : Builder) (field : String × String) (after : List Token) :
    blockPairs (fuel + 2) { b with tokens := entryTokens field ++ after }
      = (blockPairs (fuel + 1) { b with tokens := after, events := b.events + 2 }).bind fun r =>
        some (entryNodes field :: r.1, r.2) :=
  rfl

theorem blockPairs_fields {fields : List (String × String)} {fuel : Nat} (hfuel : fields.length < fuel)
    (b : Builder) (after : List Token) :
    blockPairs fuel { b with tokens := fields.flatMap entryTokens ++ .blockEnd :: after }
      = some (fields.map entryNodes,
          { b with tokens := after, events := b.events + 2 * fields.length }) := by
  induction fields generalizing fuel b with
  | nil =>
    obtain ⟨n, rfl⟩ : ∃ n, fuel = n + 1 := ⟨fuel - 1, by simp at hfuel; omega⟩
    exact blockPairs_end n b after
  | cons field rest ih =>
    obtain ⟨n, rfl⟩ : ∃ n, fuel = n + 2 := ⟨fuel - 2, by simp at hfuel; omega⟩
    have hrest := @ih (n + 1) (by simp at hfuel; omega) { b with events := b.events + 2 }
    rw [List.flatMap_cons, List.append_assoc, blockPairs_entry, hrest]
    simp [Nat.mul_add]
    omega

/-- The document of a mapping whose entries end the text. -/
theorem document_mapping {fuel : Nat} {b c : Builder} {tokens : List Token}
    {entries : List (Node × Node)}
    (hpairs : blockPairs fuel { b with tokens, events := b.events + 2 } = some (entries, c))
    (hend : c.tokens = []) :
    document (fuel + 1) { b with tokens := .blockMappingStart :: tokens }
      = some (some (.mapping entries none), c) := by
  have hroot : node (fuel + 1) true false { b with tokens := .blockMappingStart :: tokens }
      = some (.mapping entries none, c) := by
    have hstep : node (fuel + 1) true false { b with tokens := .blockMappingStart :: tokens }
        = (blockPairs fuel { b with tokens, events := b.events + 2 }).bind fun r =>
          some (.mapping r.1 none, r.2) := rfl
    rw [hstep, hpairs]
    rfl
  have hstep : document (fuel + 1) { b with tokens := .blockMappingStart :: tokens }
      = (node (fuel + 1) true false { b with tokens := .blockMappingStart :: tokens }).bind fun r =>
        (show Build (Option Node) from do
          documentEnds (fuel + 1)
          if (← peek).isSome then malformed
          return some r.1) r.2 := rfl
  obtain ⟨left, handles, anchors, owners, nodes, serial, events⟩ := c
  subst hend
  rw [hstep, hroot]
  rfl

end Build

theorem length_entryTokens (fields : List (String × String)) :
    (fields.flatMap Lexer.entryTokens).length = 4 * fields.length := by
  induction fields with
  | nil => rfl
  | cons field rest ih => simp [Lexer.entryTokens] at ih ⊢; omega

/-- The document of written fields: one mapping of scalars. -/
theorem document_fields {tail : List Char} {fields : List (String × String)} (hne : fields ≠ [])
    (hnames : ∀ field ∈ fields, IsName field.1) (htail : Printable tail)
    (hlast : ∀ last ∈ fields.getLast?, Lexer.Closes last.2.toList tail []) :
    Document.read? (Lexer.fieldsText tail fields)
      = some ⟨some (.mapping (fields.map Build.entryNodes) none), [], 2 + 2 * fields.length⟩ := by
  let start : Builder := ⟨[], [("!", "!"), ("!!", "tag:yaml.org,2002:")], [], [], [], 0, 0⟩
  let tokens : List Token := .blockMappingStart :: (fields.flatMap Lexer.entryTokens ++ [.blockEnd])
  have hfuel : fields.length < 2 * tokens.length + 3 := by
    have hlength := length_entryTokens fields
    simp [tokens, hlength]
    omega
  have hpairs := Build.blockPairs_fields hfuel { start with events := 2 } []
  have hdocument := Build.document_mapping (b := start) hpairs rfl
  rw [Document.read?, Lexer.tokens?_fieldsText hne hnames htail hlast]
  simp only [Option.bind_eq_bind, Option.bind_some, StateT.run]
  rw [hdocument]
  rfl

/-! ## Values -/

/-- A plain text means nothing else than a string. -/
theorem meaning_of_plain {text : List Char} (h : styleOf text = .plain) :
    meaning (String.ofList text) = .string := by
  have hpreferred := (plain_style h).1
  rw [preferredStyle] at hpreferred
  split at hpreferred
  · cases hpreferred
  · split at hpreferred
    all_goals first | assumption | cases hpreferred

/-- A scalar stands for the text it was written for. -/
theorem scalarValue?_styleOf (text : List Char) :
    scalarValue? (String.ofList text) (styleOf text == .plain) none
      = some (.string (String.ofList text)) := by
  cases hplain : styleOf text == .plain with
  | false => rfl
  | true =>
    have hmeaning := meaning_of_plain (eq_of_beq hplain)
    simp [scalarValue?, isLocal, standard, hmeaning]

namespace Document

theorem value_valueNode (d : Document) (depth : Nat) (text : List Char) :
    d.value depth (Build.valueNode text) = pure (.string (String.ofList text)) := by
  have hresolve : d.resolve (Build.valueNode text) = pure (Build.valueNode text) := rfl
  rw [value.eq_def, hresolve, pure_bind]
  simp only [Build.valueNode, scalarValue?_styleOf]

theorem value_mapping (d : Document) (depth : Nat) (fields : List (String × String)) :
    d.value (depth + 1) (.mapping (fields.map Build.entryNodes) none)
      = pure (.object (Json.sortMembers (stringFields fields))) := by
  have hkey : ∀ key : String, d.keyText (.scalar key true none) = pure key := fun _ => rfl
  have hmembers : (fields.map Build.entryNodes).mapM (fun entry => do
      return (← d.keyText entry.1, ← d.value depth entry.2))
        = (pure (stringFields fields) : Decode _) := by
    induction fields with
    | nil => rfl
    | cons field rest ih =>
      rw [List.map_cons, List.mapM_cons, ih, Build.entryNodes, hkey, value_valueNode]
      simp [stringFields]
  have hstep : d.value (depth + 1) (.mapping (fields.map Build.entryNodes) none)
      = (do
        let members ← (fields.map Build.entryNodes).mapM fun entry => do
          return (← d.keyText entry.1, ← d.value depth entry.2)
        return Json.object (Json.sortMembers members)) := by
    rw [value.eq_def]
    rfl
  rw [hstep, hmembers]
  rfl

end Document

/-- Fields read back from their text. -/
theorem read?_fieldsText {tail : List Char} {fields : List (String × String)} (hne : fields ≠ [])
    (hnames : ∀ field ∈ fields, IsName field.1) (htail : Printable tail)
    (hlast : ∀ last ∈ fields.getLast?, Lexer.Closes last.2.toList tail []) :
    read? (String.ofList (Lexer.fieldsText tail fields))
      = some (.object (Json.sortMembers (stringFields fields))) := by
  rw [read?, String.toList_ofList, document_fields hne hnames htail hlast]
  simp only [Option.bind_eq_bind, Option.bind_some, Document.decode, depthLimit,
    Document.value_mapping]
  rfl

/-- A mapping of strings reads back from the document that is written of it. -/
theorem read?_write {fields : List (String × String)} (hne : fields ≠ [])
    (hnames : ∀ field ∈ fields, IsName field.1) :
    read? (write (.object (stringFields fields)))
      = some (.object (Json.sortMembers (stringFields fields))) := by
  obtain ⟨last, hlast⟩ : ∃ last, last ∈ fields.getLast? := ⟨_, List.getLast?_eq_some_getLast hne⟩
  have htail : Printable (lineEnd last.2.toList) := by
    rw [lineEnd]
    split <;> decide
  have hcloses : ∀ field ∈ fields.getLast?, Lexer.Closes field.2.toList (lineEnd last.2.toList) [] := by
    intro field hfield
    obtain rfl : last = field := Option.some.inj (hlast.symm.trans hfield)
    refine ⟨by simp [Lexer.startsLetter], ?_⟩
    rw [lineEnd]
    cases endsLine last.2.toList with
    | true => rfl
    | false => exact @Ends.line [] rfl
  have hread := read?_fieldsText hne hnames htail hcloses
  rwa [← Lexer.flatMap_entryText hlast, ← write_fields hne hnames, String.ofList_toList] at hread

end AgentDocs.Yaml
