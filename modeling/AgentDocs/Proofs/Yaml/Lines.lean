import AgentDocs.Proofs.Text.Fields
import AgentDocs.Proofs.Text.Trim
import AgentDocs.Proofs.Yaml.Entries

/-! # The lines of written fields

What is written is printable, and only a block takes more than a line. A block has the lines of its
text, indented. -/
namespace AgentDocs.Yaml
open Page Text

/-! ## Characters -/

/-- A text that holds what is written as it is. -/
def Printable (text : List Char) : Prop := ∀ c ∈ text, isPrintable c = true

/-- A text that is written as it is and feeds no line. -/
def OnLine (text : List Char) : Prop := ∀ c ∈ text, isPrintable c = true ∧ c ≠ '\n'

instance (text : List Char) : Decidable (Printable text) := List.decidableBAll _ _

instance (text : List Char) : Decidable (OnLine text) := List.decidableBAll _ _

theorem isAllowed_of_isPrintable {c : Char} (h : isPrintable c = true) : isAllowed c = true := by
  simp only [isPrintable, Bool.or_eq_true, Bool.and_eq_true, decide_eq_true_eq, beq_iff_eq] at h
  simp only [isAllowed, Bool.or_eq_true, Bool.and_eq_true, decide_eq_true_eq, beq_iff_eq]
  omega

theorem Printable.append {text after : List Char} (h : Printable text) (hafter : Printable after) :
    Printable (text ++ after) := List.forall_mem_append.2 ⟨h, hafter⟩

theorem OnLine.append {text after : List Char} (h : OnLine text) (hafter : OnLine after) :
    OnLine (text ++ after) := List.forall_mem_append.2 ⟨h, hafter⟩

theorem OnLine.printable {text : List Char} (h : OnLine text) : Printable text := fun c hc => (h c hc).1

theorem printable_of_shape {text : List Char} (h : (shape text).unprintable = false) : Printable text :=
  fun c hc => by simpa using List.any_eq_false.1 h c hc

theorem onLine_pad (broken : Bool) : OnLine (if broken then pad else []) := by
  cases broken <;> decide

theorem onLine_toDigits (n : Nat) : OnLine ((Nat.toDigits 16 n).map Char.toUpper) := by
  have hdigit : ∀ n : Fin 16, OnLine [n.val.digitChar.toUpper] := by decide
  rw [Nat.toDigits_eq_if (by omega)]
  by_cases h : n < 16
  · rw [if_pos h]
    exact hdigit ⟨n, h⟩
  · rw [if_neg h, List.map_append]
    exact (onLine_toDigits (n / 16)).append (hdigit ⟨n % 16, Nat.mod_lt n (by omega)⟩)
termination_by n

theorem onLine_hex (k n : Nat) : OnLine (hex k n) := by
  refine OnLine.append (fun c hc => ?_) (onLine_toDigits n)
  rw [List.eq_of_mem_replicate hc]
  decide

theorem onLine_escaped (c : Char) : OnLine (escaped c) := by
  by_cases hbare : isBare c = true
  · rw [escaped_of_isBare hbare]
    simp only [isBare, Bool.and_eq_true, Bool.not_eq_true'] at hbare
    obtain ⟨⟨⟨hprintable, hbreak⟩, -⟩, -⟩ := hbare
    refine List.forall_mem_singleton.2 ⟨hprintable, ?_⟩
    rintro rfl
    cases hbreak
  · by_cases hc : c ∈ lettered
    · have hall : lettered.all (fun c => decide (OnLine (escaped c))) = true := by decide
      exact of_decide_eq_true (List.all_eq_true.1 hall c hc)
    · rw [escaped_of_number (by simpa using hbare) hc]
      refine List.forall_mem_cons.2 ⟨by decide, ?_⟩
      repeat' split
      all_goals exact List.forall_mem_cons.2 ⟨by decide, onLine_hex _ _⟩

theorem onLine_betweenQuotes {single broken : Bool} {text : List Char}
    (h : single = true → OnLine text) : OnLine (betweenQuotes single broken text) := by
  induction text generalizing broken with
  | nil => exact onLine_pad broken
  | cons c rest ih =>
    have hnext := fun broken => @ih broken fun hsingle => (List.forall_mem_cons.1 (h hsingle)).2
    have hquoted : OnLine (quotedChar single c) := by
      cases single with
      | false => exact onLine_escaped c
      | true =>
        have hc := (List.forall_mem_cons.1 (h rfl)).1
        by_cases hmark : c = '\''
        · subst hmark
          decide
        · simpa [quotedChar, hmark, OnLine] using hc
    rw [betweenQuotes]
    split
    · rename_i hbreak
      simp only [Bool.and_eq_true] at hbreak
      exact List.forall_mem_cons.2 ⟨(List.forall_mem_cons.1 (h hbreak.1)).1, hnext true⟩
    · exact ((onLine_pad broken).append hquoted).append (hnext false)

theorem printable_blockText {broken : Bool} {text : List Char} (h : Printable text) :
    Printable (blockText broken text) := by
  induction text generalizing broken with
  | nil => exact h
  | cons c rest ih =>
    obtain ⟨hc, hrest⟩ := List.forall_mem_cons.1 h
    rw [blockText]
    split
    · exact List.forall_mem_cons.2 ⟨hc, ih hrest⟩
    · exact (onLine_pad broken).printable.append (List.forall_mem_cons.2 ⟨hc, ih hrest⟩)

theorem onLine_blockHead (text : List Char) : OnLine (blockHead text) := by
  refine OnLine.append ?_ ?_
  · rw [blockHint.eq_def]
    repeat' split
    all_goals decide
  · rw [chompingMark]
    repeat' split
    all_goals decide

theorem onLine_of_plain {text : List Char} (h : styleOf text = .plain) : OnLine text := by
  have hadmits := (plain_style h).2
  simp only [Shape.admitsPlain, Bool.not_eq_true', Bool.or_eq_false_iff] at hadmits
  obtain ⟨⟨⟨⟨⟨⟨⟨-, hbreaks⟩, hunprintable⟩, -⟩, -⟩, -⟩, -⟩, -⟩ := hadmits
  refine fun c hc => ⟨printable_of_shape hunprintable c hc, ?_⟩
  rintro rfl
  exact absurd (List.any_eq_false.1 hbreaks _ hc) (by decide)

/-- Only a block takes more than a line. -/
theorem onLine_scalarText {text : List Char} (h : styleOf text ≠ .literal) :
    OnLine (scalarText text) := by
  rw [scalarText]
  cases hstyle : styleOf text with
  | plain => exact onLine_of_plain hstyle
  | singleQuoted =>
    obtain ⟨hfeed, hadmits⟩ := single_style hstyle
    simp only [Shape.admitsSingle, Bool.not_eq_true', Bool.or_eq_false_iff] at hadmits
    have htext : OnLine text := fun c hc =>
      ⟨printable_of_shape hadmits.2 c hc, fun heq => hfeed (heq ▸ hc)⟩
    exact List.forall_mem_cons.2 ⟨by decide, (onLine_betweenQuotes fun _ => htext).append (by decide)⟩
  | doubleQuoted =>
    exact List.forall_mem_cons.2 ⟨by decide, (onLine_betweenQuotes (by simp)).append (by decide)⟩
  | literal => exact absurd hstyle h

theorem printable_scalarText (text : List Char) : Printable (scalarText text) := by
  by_cases hstyle : styleOf text = .literal
  · have hadmits := (literal_style hstyle).2
    simp only [Shape.admitsBlock, Bool.not_eq_true', Bool.or_eq_false_iff] at hadmits
    simp only [scalarText, hstyle]
    refine List.forall_mem_cons.2 ⟨by decide, (onLine_blockHead text).printable.append ?_⟩
    exact List.forall_mem_cons.2 ⟨by decide, printable_blockText (printable_of_shape hadmits.2)⟩
  · exact (onLine_scalarText hstyle).printable

namespace Lexer

theorem printable_fieldsText {tail : List Char} {fields : List (String × String)}
    (hnames : ∀ field ∈ fields, IsName field.1) (htail : Printable tail) :
    Printable (fieldsText tail fields) := by
  induction fields with
  | nil => intro c hc; cases hc
  | cons field rest ih =>
    obtain ⟨hname, hnames⟩ := List.forall_mem_cons.1 hnames
    have hbehind : Printable
        (if rest = [] then tail else lineEnd field.2.toList ++ fieldsText tail rest) := by
      split
      · exact htail
      · refine Printable.append ?_ (ih hnames)
        rw [lineEnd]
        split <;> decide
    refine (onLine_of_plain hname.2.1).printable.append (List.forall_mem_cons.2 ⟨by decide, ?_⟩)
    exact List.forall_mem_cons.2 ⟨by decide, (printable_scalarText _).append hbehind⟩

end Lexer

/-! ## Blocks -/

theorem isBlank_of_isBreak {c : Char} (h : isBreak c = true) : isBlank c = true := by
  simp only [isBreak, Bool.or_eq_true, beq_iff_eq] at h
  rcases h with (((rfl | rfl) | rfl) | rfl) | rfl <;> decide

/-- A block has the lines of its text. -/
theorem split_blockText (broken : Bool) (text : List Char) :
    ∃ line rest, split '\n' text = line :: rest ∧
      split '\n' (blockText broken text) = blockText broken line :: rest.map (blockText true) := by
  induction text generalizing broken with
  | nil => exact ⟨[], [], rfl, rfl⟩
  | cons c text ih =>
    by_cases hfeed : c = '\n'
    · subst hfeed
      obtain ⟨line, rest, hsplit, hblock⟩ := ih true
      refine ⟨[], line :: rest, by simp [split, hsplit], ?_⟩
      simp [blockText, isBreak, split, hblock]
    · by_cases hbreak : isBreak c = true
      · obtain ⟨line, rest, hsplit, hblock⟩ := ih true
        refine ⟨c :: line, rest, by simp [split, hfeed, hsplit], ?_⟩
        simp [blockText, hbreak, split, hfeed, hblock]
      · obtain ⟨line, rest, hsplit, hblock⟩ := ih false
        refine ⟨c :: line, rest, by simp [split, hfeed, hsplit], ?_⟩
        cases broken <;> simp [blockText, hbreak, split, hfeed, hblock, pad]

theorem allBlank_blockText (broken : Bool) (text : List Char) :
    allBlank (blockText broken text) = allBlank text := by
  induction text generalizing broken with
  | nil => rfl
  | cons c text ih =>
    by_cases hbreak : isBreak c = true
    · have hrest := ih true
      simp only [allBlank] at hrest
      simp [blockText, hbreak, allBlank, hrest]
    · have hrest := ih false
      have hpad : pad.all isBlank = true := by decide
      simp only [allBlank] at hrest
      cases broken <;> simp [blockText, hbreak, allBlank, hrest, hpad]

/-- Indentation does not make a line a word that it was not. -/
theorem trimRight_of_blockText {line word : List Char} (hword : word.any isBlank = false)
    (h : trimRight (blockText false line) = word) : trimRight line = word := by
  induction word generalizing line with
  | nil =>
    rw [trimRight_eq_nil, allBlank_blockText] at h
    exact trimRight_eq_nil.2 h
  | cons x word ih =>
    obtain ⟨hx, htail⟩ := Bool.or_eq_false_iff.1 hword
    cases line with
    | nil => exact h
    | cons c line =>
      by_cases hbreak : isBreak c = true
      · rw [blockText, if_pos hbreak, trimRight_cons] at h
        split at h
        · cases h
        · rw [← (List.cons.inj h).1, isBlank_of_isBreak hbreak] at hx
          cases hx
      · have hblock : blockText false (c :: line) = c :: blockText false line := by
          simp [blockText, hbreak]
        rw [hblock, trimRight_cons, allBlank_blockText] at h
        rw [trimRight_cons]
        split at h
        · cases h
        · obtain ⟨rfl, hrest⟩ := List.cons.inj h
          rw [if_neg ‹_›, ih htail hrest]

theorem trim_of_blockText {broken : Bool} {line word : List Char} (hword : word.any isBlank = false)
    (h : trim (blockText broken line) = word) : trim line = word := by
  have hspace : isBlank ' ' = true := by decide
  -- blanks in front count for nothing, with or without indentation; behind the first other character
  -- no indentation comes before the next break
  induction line generalizing broken with
  | nil => exact h
  | cons c line ih =>
    cases hc : isBlank c with
    | true =>
      have hline : trim (c :: line) = trim line := by simp [trim, trimLeft, hc]
      have hblock : ∃ broken', trim (blockText broken (c :: line)) = trim (blockText broken' line) := by
        by_cases hbreak : isBreak c = true
        · exact ⟨true, by simp [blockText, hbreak, trim, trimLeft, hc]⟩
        · refine ⟨false, ?_⟩
          cases broken <;> simp [blockText, hbreak, trim, trimLeft, hc, pad, hspace]
      obtain ⟨broken', hblock⟩ := hblock
      rw [hblock] at h
      exact hline.trans (ih h)
    | false =>
      have hbreak : isBreak c ≠ true := fun hbreak => by
        rw [isBlank_of_isBreak hbreak] at hc
        cases hc
      have hblock : trim (blockText broken (c :: line)) = trimRight (blockText false (c :: line)) := by
        cases broken <;> simp [blockText, hbreak, trim, trimLeft, hc, pad, hspace]
      have hline : trim (c :: line) = trimRight (c :: line) := by simp [trim, trimLeft, hc]
      rw [hline]
      exact trimRight_of_blockText hword (hblock.symm.trans h)

/-- A block ends with the last character of its text. -/
theorem exists_blockText_concat {c : Char} (hc : isBreak c = false) (broken : Bool) (text : List Char) :
    ∃ front, blockText broken (text ++ [c]) = front ++ [c] := by
  induction text generalizing broken with
  | nil => exact ⟨if broken then pad else [], by simp [blockText, hc]⟩
  | cons d text ih =>
    by_cases hbreak : isBreak d = true
    · obtain ⟨front, hfront⟩ := ih true
      exact ⟨d :: front, by simp [blockText, hbreak, hfront]⟩
    · obtain ⟨front, hfront⟩ := ih false
      exact ⟨(if broken then pad else []) ++ d :: front, by simp [blockText, hbreak, hfront]⟩

/-! ## Fields -/

namespace Lexer

/-- Without a tail the text of fields ends with the last value. -/
theorem exists_fieldsText_append {fields : List (String × String)} {last : String × String}
    (hlast : last ∈ fields.getLast?) :
    ∃ front, fieldsText [] fields = front ++ scalarText last.2.toList := by
  induction fields with
  | nil => cases hlast
  | cons field rest ih =>
    cases rest with
    | nil =>
      obtain rfl : field = last := by simpa using hlast
      exact ⟨field.1.toList ++ [':', ' '], by simp [fieldsText]⟩
    | cons next rest =>
      obtain ⟨front, hfront⟩ := ih (by simpa using hlast)
      refine ⟨field.1.toList ++
        ':' :: ' ' :: (scalarText field.2.toList ++ lineEnd field.2.toList ++ front), ?_⟩
      rw [fieldsText, if_neg (List.cons_ne_nil _ _), hfront]
      simp

theorem exists_fieldsText_cons {tail : List Char} {fields : List (String × String)} (hne : fields ≠ [])
    (hnames : ∀ field ∈ fields, IsName field.1) :
    ∃ x rest, fieldsText tail fields = x :: rest ∧ x.isAlpha = true := by
  have hletter := @startsLetter_fieldsText tail fields hnames
  cases htext : fieldsText tail fields with
  | nil =>
    obtain ⟨field, rest, rfl⟩ := List.exists_cons_of_ne_nil hne
    simp [fieldsText] at htext
  | cons x rest => exact ⟨x, rest, rfl, hletter x (by rw [htext]; rfl)⟩

theorem fieldsText_append {tail : List Char} {fields : List (String × String)} (hne : fields ≠ []) :
    fieldsText tail fields = fieldsText [] fields ++ tail := by
  induction fields with
  | nil => exact absurd rfl hne
  | cons field rest ih =>
    by_cases hrest : rest = []
    · simp [fieldsText, hrest]
    · simp [fieldsText, hrest, ih hrest]

/-- What is written of fields ends with the end of the last line. -/
theorem flatMap_entryText {fields : List (String × String)} {last : String × String}
    (hlast : last ∈ fields.getLast?) :
    fields.flatMap entryText = fieldsText (lineEnd last.2.toList) fields := by
  induction fields with
  | nil => cases hlast
  | cons field rest ih =>
    cases rest with
    | nil =>
      obtain rfl : field = last := by simpa using hlast
      simp [fieldsText, entryText]
    | cons next rest =>
      have hrest := ih (by simpa using hlast)
      have hbehind : fieldsText (lineEnd last.2.toList) (field :: next :: rest)
          = entryText field ++ fieldsText (lineEnd last.2.toList) (next :: rest) := by
        rw [fieldsText, if_neg (List.cons_ne_nil _ _), entryText]
        simp
      rw [List.flatMap_cons, hrest, hbehind]

end Lexer

end AgentDocs.Yaml
