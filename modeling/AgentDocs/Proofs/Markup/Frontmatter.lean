import AgentDocs.Markup.Frontmatter
import AgentDocs.Proofs.Markup.Blocks
import AgentDocs.Proofs.Yaml.Fields

/-! # Frontmatter as it is written

Fields are written between two rules, without the blanks at their end. They read back where the last
value does not end with such a blank and no line of a block is itself a rule, which would end the
header block early. -/
namespace AgentDocs.Markup
open Text Yaml

/-! ## Lines that are no rules -/

/-- Whether no line of a text is a rule. -/
def RuleFree (text : List Char) : Prop := ∀ line ∈ split '\n' text, isRule line = false

instance (text : List Char) : Decidable (RuleFree text) :=
  inferInstanceAs (Decidable (∀ line ∈ split '\n' text, _))

theorem isRule_of_letter {line : List Char} {x : Char} (hx : x.isAlpha = true) (h : x ∈ line) :
    isRule line = false := by
  refine Bool.eq_false_iff.2 fun hrule => ?_
  have hmem := mem_trim (not_isBlank_of_isAlpha hx) h
  rw [eq_of_beq hrule] at hmem
  exact Lexer.notMem_of_isAlpha hx ['-', '-', '-'] (by decide) hmem

theorem ruleFree_line {line : List Char} {x : Char} (hx : x.isAlpha = true) (h : x ∈ line)
    (hfeed : '\n' ∉ line) : RuleFree line := by
  rw [RuleFree, split_of_notMem hfeed]
  exact List.forall_mem_singleton.2 (isRule_of_letter hx h)

theorem RuleFree.newline {text below : List Char} (h : RuleFree text) (hbelow : RuleFree below) :
    RuleFree (text ++ '\n' :: below) := by
  rw [RuleFree, split_append_cons]
  exact List.forall_mem_append.2 ⟨h, hbelow⟩

/-- A text that begins with a letter may follow within a line. -/
theorem RuleFree.append {text after : List Char} {x : Char} (hx : x.isAlpha = true) (h : RuleFree text)
    (hafter : RuleFree (x :: after)) : RuleFree (text ++ x :: after) := by
  have hfeed : x ≠ '\n' := by
    rintro rfl
    revert hx
    decide
  obtain ⟨front, last, htext, happend⟩ := exists_split_append '\n' text
  obtain ⟨line, rest, hline⟩ := List.exists_cons_of_ne_nil (split_ne_nil '\n' after)
  have hsplit : split '\n' (x :: after) = (x :: line) :: rest := by simp [split, hfeed, hline]
  rw [RuleFree, htext] at h
  rw [RuleFree, hsplit] at hafter
  rw [RuleFree, happend hsplit]
  -- only the line where the texts meet is new, and it holds a letter
  refine List.forall_mem_append.2 ⟨(List.forall_mem_append.1 h).1, List.forall_mem_cons.2 ⟨?_, ?_⟩⟩
  · exact isRule_of_letter hx (by simp)
  · exact (List.forall_mem_cons.1 hafter).2

theorem ruleFree_blockText {text : List Char} (h : RuleFree text) : RuleFree (blockText true text) := by
  obtain ⟨line, rest, htext, hblock⟩ := split_blockText true text
  have hrule : ∀ line, isRule line = false → isRule (blockText true line) = false := by
    refine fun line hline => Bool.eq_false_iff.2 fun hrule => ?_
    rw [isRule, trim_of_blockText (by decide) (eq_of_beq hrule)] at hline
    cases hline
  rw [RuleFree, htext] at h
  rw [RuleFree, hblock]
  intro blockLine hmem
  obtain ⟨line, hline, rfl⟩ : ∃ l ∈ line :: rest, blockText true l = blockLine := by
    simpa [or_comm, eq_comm] using hmem
  exact hrule line (h line hline)

/-! ## The text of fields -/

/-- Whether a text that is written as a block keeps the header block open. -/
def StaysInside (text : List Char) : Prop := styleOf text = .literal → RuleFree text

/-- Whether nothing of a text is lost where blanks at the end are: it is quoted, or it does not end
with a blank. -/
def KeepsEnd (text : List Char) : Prop :=
  styleOf text = .singleQuoted ∨ styleOf text = .doubleQuoted ∨ text.getLast?.all (!isBlank ·) = true

instance (text : List Char) : Decidable (StaysInside text) :=
  inferInstanceAs (Decidable (_ → RuleFree text))

instance (text : List Char) : Decidable (KeepsEnd text) := inferInstanceAs (Decidable (_ ∨ _ ∨ _))

theorem ruleFree_entry {key : String} (hname : IsName key) {text : List Char} (h : StaysInside text) :
    RuleFree (key.toList ++ ':' :: ' ' :: Yaml.scalarText text) := by
  obtain ⟨x, more, hkey⟩ := List.exists_cons_of_ne_nil (ne_nil_of_plain hname.2.1)
  have hx := hname.1 x (by rw [hkey]; exact List.mem_cons_self)
  have hline : ∀ rest : List Char, OnLine rest → RuleFree (key.toList ++ ':' :: ' ' :: rest) := by
    intro rest hrest
    have hon : OnLine (key.toList ++ ':' :: ' ' :: rest) :=
      (onLine_of_plain hname.2.1).append (@OnLine.append [':', ' '] rest (by decide) hrest)
    exact ruleFree_line hx (by simp [hkey]) fun hfeed => (hon _ hfeed).2 rfl
  by_cases hstyle : styleOf text = .literal
  · have hhead := hline ('|' :: blockHead text)
      (@OnLine.append ['|'] _ (by decide) (onLine_blockHead text))
    have hblock := hhead.newline (ruleFree_blockText (h hstyle))
    simpa [Yaml.scalarText, hstyle] using hblock
  · exact hline _ (onLine_scalarText hstyle)

theorem ruleFree_fieldsText {fields : List (String × String)}
    (hnames : ∀ field ∈ fields, IsName field.1)
    (hinside : ∀ field ∈ fields, StaysInside field.2.toList) :
    RuleFree (Lexer.fieldsText [] fields) := by
  induction fields with
  | nil => decide
  | cons field rest ih =>
    obtain ⟨hname, hnames⟩ := List.forall_mem_cons.1 hnames
    obtain ⟨hfield, hinside⟩ := List.forall_mem_cons.1 hinside
    have hentry := ruleFree_entry hname hfield
    have hrest := ih hnames hinside
    cases rest with
    | nil => simpa [Lexer.fieldsText] using hentry
    | cons next rest =>
      obtain ⟨x, more, hbelow, hx⟩ :=
        @Lexer.exists_fieldsText_cons [] (next :: rest) (List.cons_ne_nil _ _) hnames
      have htext : Lexer.fieldsText [] (field :: next :: rest)
          = field.1.toList ++ ':' :: ' ' :: Yaml.scalarText field.2.toList ++
            (lineEnd field.2.toList ++ Lexer.fieldsText [] (next :: rest)) := by
        rw [Lexer.fieldsText, if_neg (List.cons_ne_nil _ _)]
        simp
      rw [htext, lineEnd]
      rw [hbelow] at hrest ⊢
      cases endsLine field.2.toList with
      | true => exact hentry.append hx hrest
      | false => exact hentry.newline hrest

/-- A value that keeps its end is written with no blank at its end, so it does not end its line. -/
theorem exists_scalarText_concat {text : List Char} (h : KeepsEnd text) :
    (∃ front c, Yaml.scalarText text = front ++ [c] ∧ isBlank c = false) ∧ endsLine text = false := by
  have hsolid : text ≠ [] → styleOf text = .plain ∨ styleOf text = .literal →
      ∃ front c, text = front ++ [c] ∧ isBlank c = false := by
    intro hne hstyle
    refine ⟨_, _, (List.dropLast_concat_getLast hne).symm, ?_⟩
    rcases h with hsingle | hdouble | hlast
    · simp [hsingle] at hstyle
    · simp [hdouble] at hstyle
    · simpa [List.getLast?_eq_some_getLast hne] using hlast
  cases hstyle : styleOf text with
  | plain =>
    obtain ⟨front, c, htext, hc⟩ := hsolid (ne_nil_of_plain hstyle) (.inl hstyle)
    exact ⟨⟨front, c, by simpa only [Yaml.scalarText, hstyle] using htext, hc⟩,
      by simp [endsLine, hstyle]⟩
  | singleQuoted =>
    exact ⟨⟨'\'' :: betweenQuotes true false text, '\'', by simp only [Yaml.scalarText, hstyle],
      by decide⟩, by simp [endsLine, hstyle]⟩
  | doubleQuoted =>
    exact ⟨⟨'"' :: betweenQuotes false false text, '"', by simp only [Yaml.scalarText, hstyle],
      by decide⟩, by simp [endsLine, hstyle]⟩
  | literal =>
    obtain ⟨front, c, rfl, hc⟩ := hsolid (literal_style hstyle).1 (.inr hstyle)
    have hbreak : isBreak c = false := Bool.eq_false_iff.2 fun hbreak => by
      rw [isBlank_of_isBreak hbreak] at hc
      cases hc
    obtain ⟨more, hmore⟩ := exists_blockText_concat hbreak true front
    refine ⟨⟨'|' :: blockHead (front ++ [c]) ++ '\n' :: more, c, ?_, hc⟩,
      by simp [endsLine, shape, hbreak]⟩
    simp [Yaml.scalarText, hstyle, hmore]

section
variable {fields : List (String × String)}

/-- The text between the rules: what is written of the fields, without the end of its last line. -/
theorem trimmedRight_write {last : String × String} (hnames : ∀ field ∈ fields, IsName field.1)
    (hlast : last ∈ fields.getLast?) (hkeeps : KeepsEnd last.2.toList) :
    trimmedRight (write (.object (stringFields fields)))
      = String.ofList (Lexer.fieldsText [] fields) := by
  have hne := List.ne_nil_of_mem (List.mem_of_getLast? hlast)
  obtain ⟨⟨front, c, hscalar, hc⟩, hends⟩ := exists_scalarText_concat hkeeps
  obtain ⟨before, htext⟩ := Lexer.exists_fieldsText_append hlast
  have hwritten := Lexer.flatMap_entryText hlast
  rw [lineEnd, hends, Lexer.fieldsText_append hne, htext, hscalar] at hwritten
  rw [trimmedRight, onChars, write_fields hne hnames, hwritten, htext, hscalar]
  refine congrArg String.ofList ?_
  have hfeed : isBlank '\n' = true := by decide
  refine (dropTailWhile_concat_of_pos hfeed _).trans ?_
  rw [← List.append_assoc]
  exact dropTailWhile_append_cons hc (before ++ front) []

theorem flatten_terminated {lines : List (List Char)} (hne : lines ≠ []) :
    (terminated lines).flatten = join ['\n'] lines ++ ['\n'] := by
  induction lines with
  | nil => exact absurd rfl hne
  | cons line rest ih =>
    cases rest with
    | nil => simp [terminated, join]
    | cons next rest =>
      have hrest := ih (List.cons_ne_nil _ _)
      simp only [terminated, List.map_cons, List.flatten_cons, join] at hrest ⊢
      rw [hrest]
      simp

/-- The document of fields. -/
theorem writeFrontmatter_fields {last : String × String} (hnames : ∀ field ∈ fields, IsName field.1)
    (hlast : last ∈ fields.getLast?) (hkeeps : KeepsEnd last.2.toList) (content : List Char) :
    (writeFrontmatter (stringFields fields)).toList ++ content
      = ruledDocument (split '\n' (Lexer.fieldsText [] fields)) ('\n' :: content) := by
  have hne := List.ne_nil_of_mem (List.mem_of_getLast? hlast)
  obtain ⟨x, more, htext, hx⟩ := @Lexer.exists_fieldsText_cons [] fields hne hnames
  have hsome : (String.ofList (Lexer.fieldsText [] fields) == ""
      || String.ofList (Lexer.fieldsText [] fields) == "\x7b\x7d") = false := by
    have hempty : String.ofList (Lexer.fieldsText [] fields) ≠ "" := fun h => by
      simpa [htext] using congrArg String.toList h
    have hbraces : String.ofList (Lexer.fieldsText [] fields) ≠ "\x7b\x7d" := fun h => by
      have hchars := congrArg String.toList h
      rw [String.toList_ofList, htext] at hchars
      rw [(List.cons.inj hchars).1] at hx
      cases hx
    rw [beq_false_of_ne hempty, beq_false_of_ne hbraces]
    rfl
  have hlines := flatten_terminated (split_ne_nil '\n' (Lexer.fieldsText [] fields))
  rw [join_split] at hlines
  rw [writeFrontmatter, trimmedRight_write hnames hlast hkeeps, ruledDocument, hlines]
  simp only [hsome, Bool.false_eq_true, if_false, String.toList_append, String.toList_ofList]
  simp

/-- A line of printable characters is all of its line. -/
theorem map_lineOf_terminated {text : List Char} (h : Printable text) :
    (terminated (split '\n' text)).map lineOf = split '\n' text := by
  have hline : ∀ line ∈ split '\n' text, lineOf (line ++ ['\n']) = line := by
    intro line hmem
    rw [lineOf, dropTailWhile_concat_of_pos (by decide)]
    refine dropTailWhile_of_getLast? fun c hc => ?_
    have hmem' := List.mem_of_getLast? hc
    have hfeed : c ≠ '\n' := fun heq => notMem_of_mem_split hmem (heq ▸ hmem')
    have hreturn : c ≠ '\r' := by
      rintro rfl
      have hprintable := h _ (mem_of_mem_split hmem hmem')
      revert hprintable
      decide
    simp [hfeed, hreturn]
  rw [terminated, List.map_map]
  exact (List.map_congr_left hline).trans (List.map_id _)

/-- Below the rule a body that does not begin with a blank line is the whole body. -/
theorem bodyOf_segments {content : List Char}
    (h : ∀ line ∈ (segments content).head?, allBlank line = false) :
    bodyOf (segments ('\n' :: content)) = content := by
  have hfirst : segments ('\n' :: content) = ['\n'] :: segments content := by simp [segments]
  have hfeed : allBlank ['\n'] = true := by decide
  have hflatten := flatten_segments content
  rw [bodyOf, hfirst, List.dropWhile_cons, if_pos hfeed]
  cases hsegments : segments content with
  | nil => simpa [hsegments] using hflatten
  | cons line rest =>
    have hline := h line (by rw [hsegments]; rfl)
    rw [List.dropWhile_cons, if_neg (by simp [hline]), ← hsegments]
    exact hflatten

/-- The fields and the content of a document read back as they were written. -/
theorem readFrontmatter_writeFrontmatter {last : String × String}
    (hnames : ∀ field ∈ fields, IsName field.1) (hlast : last ∈ fields.getLast?)
    (hkeeps : KeepsEnd last.2.toList) (hinside : ∀ field ∈ fields, StaysInside field.2.toList)
    {content : List Char} (hcontent : ∀ line ∈ (segments content).head?, allBlank line = false) :
    readFrontmatter ((writeFrontmatter (stringFields fields)).toList ++ content)
      = .ok (some ⟨Json.sortMembers (stringFields fields), content⟩) := by
  have hne := List.ne_nil_of_mem (List.mem_of_getLast? hlast)
  have hlines : ∀ line ∈ split '\n' (Lexer.fieldsText [] fields),
      '\n' ∉ line ∧ trim line ≠ ['-', '-', '-'] := fun line hline =>
    ⟨notMem_of_mem_split hline, fun hrule => by
      have hfree := ruleFree_fieldsText hnames hinside line hline
      rw [isRule, hrule] at hfree
      cases hfree⟩
  have hprintable := Lexer.printable_fieldsText hnames (show Printable [] by decide)
  have hread := read?_fieldsText hne hnames (show Printable [] by decide) fun field hfield => by
    obtain rfl : last = field := Option.some.inj (hlast.symm.trans hfield)
    refine ⟨by simp [Lexer.startsLetter], ?_⟩
    rw [(exists_scalarText_concat hkeeps).2]
    exact .text
  have hblank : allBlank (Lexer.fieldsText [] fields) = false := by
    obtain ⟨x, rest, htext, hx⟩ := @Lexer.exists_fieldsText_cons [] fields hne hnames
    simp [htext, allBlank, not_isBlank_of_isAlpha hx]
  rw [writeFrontmatter_fields hnames hlast hkeeps, readFrontmatter, headerBlock?_ruledDocument hlines]
  simp only [map_lineOf_terminated hprintable, join_split, bodyOf_segments hcontent, mappingOf,
    hblank, hread]
  rfl

end

end AgentDocs.Markup
