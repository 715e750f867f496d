import AgentDocs.Generate.Manifest
import AgentDocs.Proofs.Json.Strings

/-! # The text of a manifest

A manifest that was saved is read again as it was, whatever its entries are. -/
namespace AgentDocs
open Json

namespace Json

theorem toList_indent (depth : Nat) : (indent depth).toList = List.replicate (2 * depth) ' ' :=
  String.toList_ofList

/-- The break in front of an item, at the depth of its brackets. -/
def lineBreak (depth : Nat) : List Char := '\n' :: List.replicate (2 * depth) ' '

theorem blank_lineBreak (depth : Nat) : Blank (lineBreak depth) := .newline _

theorem toList_block (left right : String) (depth : Nat) {items : List String} (h : items ≠ []) :
    (block left right depth items).toList = left.toList
      ++ (Text.join [','] (items.map fun item => lineBreak (depth + 1) ++ item.toList)
        ++ (lineBreak depth ++ right.toList)) := by
  have hcomma : ",".toList = [','] := rfl
  have hbreak : "\n".toList = ['\n'] := rfl
  cases items with
  | nil => exact absurd rfl h
  | cons item items =>
    simp [block, Text.joined, lineBreak, toList_indent, hcomma, hbreak, Function.comp_def]

theorem prettyItems_strings (depth : Nat) (ss : List String) :
    prettyItems depth (ss.map .string) = ss.map quote := by
  induction ss with
  | nil => rfl
  | cons s ss ih => simp [prettyItems, pretty, write, ih]

/-- A list of strings, at a depth of its own. -/
theorem toList_pretty_strings (depth : Nat) {ss : List String} (h : ss ≠ []) :
    (pretty depth (.array (ss.map .string))).toList
      = '[' :: (lines (lineBreak (depth + 1)) ss ++ (lineBreak depth ++ [']'])) := by
  have hquote : ss.map quote ≠ [] := fun he => h (List.map_eq_nil_iff.1 he)
  rw [pretty, prettyItems_strings, toList_block _ _ _ hquote]
  simp [lines, quote, Function.comp_def]

/-- The first item stands after a break. -/
theorem skipBlanks_lines {pad : List Char} (hpad : Blank pad) {ss : List String} (h : ss ≠ [])
    (rest : List Char) : ∃ tail, skipBlanks (lines pad ss ++ rest) = '"' :: tail := by
  cases ss with
  | nil => exact absurd rfl h
  | cons s ss =>
    cases ss with
    | nil =>
      simp only [lines, List.map_cons, List.map_nil, Text.join]
      rw [List.append_assoc, skipBlanks_append hpad]
      exact ⟨_, rfl⟩
    | cons t ss =>
      rw [lines_cons_cons, List.append_assoc, skipBlanks_append hpad]
      exact ⟨_, rfl⟩

theorem skipBlanks_colon (cs : List Char) : skipBlanks (':' :: cs) = ':' :: cs := rfl

theorem skipBlanks_openBrace (cs : List Char) : skipBlanks ('\x7b' :: cs) = '\x7b' :: cs := rfl

theorem skipBlanks_nil : skipBlanks [] = [] := rfl

theorem skipBlanks_openBracket (cs : List Char) : skipBlanks ('[' :: cs) = '[' :: cs := rfl

/-- A list of strings is read as it was written. -/
theorem value?_strings {fuel depth level : Nat} {ss : List String} (h : ss.length < fuel)
    (rest : List Char) :
    value? (fuel + 1) (depth + 1) ((pretty level (.array (ss.map .string))).toList ++ rest)
      = some (.array (ss.map .string), rest) := by
  cases ss with
  | nil =>
    have hempty : (pretty level (.array [])).toList = ['[', ']'] := by
      simp [pretty, prettyItems, block]
    rw [List.map_nil, hempty, value?]
    rfl
  | cons s ss =>
    have hne := List.cons_ne_nil s ss
    have hitems :=
      items?_lines (blank_lineBreak (level + 1)) (blank_lineBreak level) hne h depth rest
    obtain ⟨tail, htail⟩ := skipBlanks_lines (blank_lineBreak (level + 1)) hne
      (lineBreak level ++ ']' :: rest)
    rw [← items?_skipBlanks, htail] at hitems
    rw [toList_pretty_strings level hne, value?, List.cons_append, List.append_assoc,
      List.append_assoc, List.cons_append, List.nil_append, skipBlanks_openBracket]
    simp [htail, hitems]

end Json

namespace Manifest

theorem strings?_map (ss : List String) : strings? (ss.map .string) = some ss := by
  induction ss with
  | nil => rfl
  | cons s ss ih => simp [strings?, ih]

/-- The one member of a manifest, up to the end of the text. -/
def filesMember (ss : List String) : List Char :=
  quoteChars "files".toList ++ (':' :: ' ' :: ((pretty 1 (.array (ss.map .string))).toList
    ++ (lineBreak 0 ++ ['\x7d'])))

theorem skipBlanks_filesMember (ss : List String) :
    skipBlanks (filesMember ss) = '"' :: (filesMember ss).tail := rfl

theorem toList_pretty (m : Manifest) :
    (m.toJson.pretty 0).toList = '\x7b' :: (lineBreak 1 ++ filesMember m.files) := by
  have hcolon : ": ".toList = [':', ' '] := rfl
  have hobject (v : Json) : pretty 0 (.object [("files", v)])
      = block "\x7b" "\x7d" 0 [quote "files" ++ ": " ++ v.pretty 1] := by
    simp only [pretty, prettyMembers]
  rw [toJson, hobject, toList_block _ _ _ (List.cons_ne_nil _ _)]
  simp [filesMember, Text.join, quote, hcolon]

theorem membersNamed?_filesMember {fuel : Nat} {ss : List String} (h : ss.length < fuel) :
    membersNamed? "files" (fuel + 2) (filesMember ss) = some ([.array (ss.map .string)], []) := by
  have hvalue (rest : List Char) : value? (fuel + 1) depthLimit
      (' ' :: ((pretty 1 (.array (ss.map .string))).toList ++ rest))
        = some (.array (ss.map .string), rest) := by
    rw [← value?_skipBlanks, ← @value?_strings fuel 126 1 ss h rest]
    exact value?_skipBlanks _ _ _
  rw [filesMember, membersNamed?, quoteChars_eq, List.cons_append, skipBlanks_quote]
  simp only [string?_quoteChars, skipBlanks_colon, hvalue, if_true, Option.map_some]
  rfl

theorem length_lt_pretty (m : Manifest) : m.files.length < (m.toJson.pretty 0).toList.length := by
  rw [toList_pretty, filesMember]
  cases hfiles : m.files with
  | nil => exact Nat.zero_lt_succ _
  | cons s ss =>
    have hlines := length_le_lines (lineBreak (1 + 1)) (s :: ss)
    rw [toList_pretty_strings 1 (List.cons_ne_nil s ss)]
    simp only [List.length_cons, List.length_append] at hlines ⊢
    omega

/-- A manifest is read as it was saved. -/
theorem read?_pretty (m : Manifest) : read? (m.toJson.pretty 0) = some m := by
  have hlen : m.files.length < 2 * (m.toJson.pretty 0).toList.length := by
    have := length_lt_pretty m
    omega
  have hmember := membersNamed?_filesMember hlen
  have hbody : skipBlanks (lineBreak 1 ++ filesMember m.files)
      = '"' :: (filesMember m.files).tail := by
    rw [skipBlanks_append (blank_lineBreak 1), skipBlanks_filesMember]
  have hread : readMembers? "files" (m.toJson.pretty 0) = some [.array (m.files.map .string)] := by
    rw [readMembers?, toList_pretty]
    rw [toList_pretty, ← membersNamed?_skipBlanks, skipBlanks_filesMember] at hmember
    simp [skipBlanks_openBrace, hbody, hmember, skipBlanks_nil, -List.length_cons,
      -List.length_append]
  simp only [read?, hread, ofFiles?, strings?_map, Option.map_some]

end Manifest
end AgentDocs
