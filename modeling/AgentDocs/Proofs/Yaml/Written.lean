import AgentDocs.Yaml.Writer

/-! # Fields as they are written

A mapping of strings is written entry by entry, one line for a key and more for a text that is
quoted over several lines or written as a literal block. What stands on the page is a function of
the entries alone: no entry depends on those before it. -/
namespace AgentDocs.Yaml

/-! ## The style of a text -/

/-- What a style may be chosen for, as a value that was asked for in some style. -/
def Admitted (asked : Style) (text : List Char) : Style → Prop
  | .plain => asked = .plain ∧ (shape text).admitsPlain = true
  | .singleQuoted => asked ≠ .literal ∧ (shape text).admitsSingle = true
  | .doubleQuoted => True
  | .literal => text ≠ [] ∧ (shape text).admitsBlock = true

theorem admitted_chosenStyle (asked : Style) (text : List Char) :
    Admitted asked text (chosenStyle asked false text) := by
  have hempty : text = [] → (shape text).admitsSingle = true := by
    rintro rfl
    decide
  cases asked <;> cases hplain : (shape text).admitsPlain <;>
    cases hsingle : (shape text).admitsSingle <;> cases hblock : (shape text).admitsBlock <;>
    by_cases hnil : text = [] <;> simp_all [chosenStyle, Admitted]

/-- The style in which a text is written as a value. -/
def styleOf (text : List Char) : Style := chosenStyle (preferredStyle text) false text

theorem preferredStyle_of_break {text : List Char} (h : '\n' ∈ text) :
    preferredStyle text = .literal := by
  have hbreak : text.contains '\n' = true := by simpa using h
  rw [preferredStyle, if_pos hbreak]

/-- A text in single quotes has no line feed: one with line feeds is asked for as a block. -/
theorem single_style {text : List Char} (h : styleOf text = .singleQuoted) :
    '\n' ∉ text ∧ (shape text).admitsSingle = true := by
  have hadmitted := admitted_chosenStyle (preferredStyle text) text
  rw [← styleOf, h] at hadmitted
  exact ⟨fun hbreak => hadmitted.1 (preferredStyle_of_break hbreak), hadmitted.2⟩

theorem plain_style {text : List Char} (h : styleOf text = .plain) :
    preferredStyle text = .plain ∧ (shape text).admitsPlain = true := by
  have hadmitted := admitted_chosenStyle (preferredStyle text) text
  rwa [← styleOf, h] at hadmitted

theorem literal_style {text : List Char} (h : styleOf text = .literal) :
    text ≠ [] ∧ (shape text).admitsBlock = true := by
  have hadmitted := admitted_chosenStyle (preferredStyle text) text
  rwa [← styleOf, h] at hadmitted

theorem ne_nil_of_plain {text : List Char} (h : styleOf text = .plain) : text ≠ [] := by
  rintro rfl
  revert h
  decide

/-! ## The text of a scalar -/

/-- The indentation of a value that goes on below its key. -/
def pad : List Char := [' ', ' ']

/-- A character between quotes. -/
def quotedChar (single : Bool) (c : Char) : List Char :=
  if single then (if c == '\'' then ['\'', '\''] else [c]) else Page.escaped c

/-- The text between quotes. Single quotes leave the breaks that end a line, and the text goes on
behind the indentation; `broken` after such a break. -/
def betweenQuotes (single broken : Bool) : List Char → List Char
  | [] => if broken then pad else []
  | c :: rest =>
    if single && isBreak c then c :: betweenQuotes single true rest
    else (if broken then pad else []) ++ quotedChar single c ++ betweenQuotes single false rest

/-- The lines of a literal block; `broken` at the start of a line. -/
def blockText (broken : Bool) : List Char → List Char
  | [] => []
  | c :: rest =>
    if isBreak c then c :: blockText true rest
    else (if broken then pad else []) ++ c :: blockText false rest

/-- Whether a block needs its indentation told. -/
def blockHint : List Char → List Char
  | c :: _ => if c == ' ' || isBreak c then ['2'] else []
  | [] => []

def blockHead (text : List Char) : List Char := blockHint text ++ (Page.chompingMark text).toList

def scalarText (text : List Char) : List Char :=
  match styleOf text with
  | .plain => text
  | .singleQuoted => '\'' :: betweenQuotes true false text ++ ['\'']
  | .doubleQuoted => '"' :: betweenQuotes false false text ++ ['"']
  | .literal => '|' :: blockHead text ++ '\n' :: blockText true text

/-- Whether the text of a scalar ends its line. -/
def endsLine (text : List Char) : Bool := styleOf text == .literal && (shape text).trailingBreak

/-- The end of the line behind a scalar. -/
def lineEnd (text : List Char) : List Char := if endsLine text then [] else ['\n']

/-- A field with the end of its line. -/
def entryText (field : String × String) : List Char :=
  field.1.toList ++ ':' :: ' ' :: (scalarText field.2.toList ++ lineEnd field.2.toList)

/-- Fields as the members of an object. -/
def stringFields (fields : List (String × String)) : List (String × Json) :=
  fields.map fun field => (field.1, .string field.2)

/-- A key of letters that is written as it is. -/
def IsName (key : String) : Prop :=
  (∀ c ∈ key.toList, c.isAlpha = true) ∧ styleOf key.toList = .plain ∧ Text.width key.toList ≤ 128

instance (key : String) : Decidable (IsName key) :=
  have : Decidable (∀ c ∈ key.toList, c.isAlpha = true) := List.decidableBAll _ _
  inferInstanceAs (Decidable (_ ∧ _ ∧ _))

theorem betweenQuotes_double (text : List Char) :
    betweenQuotes false false text = text.flatMap Page.escaped := by
  induction text with
  | nil => rfl
  | cons c rest ih => simp [betweenQuotes, quotedChar, ih]

namespace Page
variable {p : Page}

/-! ## Scalars on a page -/

/-- A page at the start of a line, in a mapping that is not indented. -/
def line (written : List Char) : Page := ⟨written, 0, 0, false, true⟩

@[simp] theorem indent_indicator (text : String) (spaced opens keepsFresh : Bool) :
    (p.indicator text spaced opens keepsFresh).indent = p.indent := by
  unfold indicator
  split <;> rfl

@[simp] theorem written_indicator (text : String) (spaced opens keepsFresh : Bool) :
    (p.indicator text spaced opens keepsFresh).written
      = text.toList.reverse ++ (if spaced && p.needsSpace then ' ' :: p.written else p.written) := by
  unfold indicator
  split <;> rfl

theorem toIndent_of_not_fresh (hindent : p.indent = 0) (hfresh : p.fresh = false) :
    p.toIndent = line ('\n' :: p.written) := by
  simp [toIndent, hindent, hfresh, putBreak, putAll, line]

theorem toIndent_of_fresh (hindent : p.indent = 0) (hfresh : p.fresh = true) (hcolumn : p.column = 0)
    (hspace : p.needsSpace = false) : p.toIndent = line p.written := by
  simp [toIndent, hindent, hfresh, hcolumn, hspace, putAll, line]

theorem indent_toIndent (p : Page) : p.toIndent.indent = p.indent := by
  simp only [toIndent]
  split <;> rfl

/-- Outside of any collection a line begins where it does in a mapping that is not indented. -/
theorem written_toIndent_outside (hindent : p.indent = 0) :
    (toIndent { p with indent := -1 }).written = p.toIndent.written := by
  simp [toIndent, hindent, putBreak, putAll]
  split <;> rfl

/-- Behind a break the indentation comes without another line. -/
theorem toIndent_broken (hindent : p.indent = 2) (hfresh : p.fresh = true) (hcolumn : p.column = 0) :
    p.toIndent = ⟨pad ++ p.written, 2, 2, false, true⟩ := by
  simp [toIndent, hindent, hfresh, hcolumn, putAll, pad, List.replicate]

theorem written_singleQuotedTail {text : List Char} {broken : Bool} (hindent : p.indent = 2)
    (hbroken : broken = true → p.fresh = true ∧ p.column = 0 ∧ text.head? ≠ some ' ')
    (hfeed : '\n' ∉ text) (hspace : anyNeighbours (fun a b => isBreak a && b == ' ') text = false) :
    (singleQuotedTail broken text p).written
      = (betweenQuotes true broken text).reverse ++ p.written := by
  induction text generalizing broken p with
  | nil =>
    cases broken with
    | false => rfl
    | true =>
      obtain ⟨hfresh, hcolumn, -⟩ := hbroken rfl
      simp [singleQuotedTail, betweenQuotes, toIndent_broken hindent hfresh hcolumn, pad]
  | cons c rest ih =>
    rw [List.mem_cons, not_or] at hfeed
    obtain ⟨hc, hfeed⟩ := hfeed
    have hrest : anyNeighbours (fun a b => isBreak a && b == ' ') rest = false := by
      cases rest with
      | nil => rfl
      | cons => exact (Bool.or_eq_false_iff.1 hspace).2
    by_cases hbreak : isBreak c = true
    · have hhead : rest.head? ≠ some ' ' := by
        cases rest with
        | nil => simp
        | cons d rest => simpa [hbreak] using (Bool.or_eq_false_iff.1 hspace).1
      have hne : c ≠ ' ' := by
        rintro rfl
        revert hbreak
        decide
      have hnotFeed : (c == '\n') = false := beq_eq_false_iff_ne.2 (Ne.symm hc)
      simp only [singleQuotedTail, betweenQuotes, hbreak, hnotFeed, beq_iff_eq, hne, Bool.and_false,
        Bool.and_self, if_true, if_false]
      rw [ih ?_ (fun _ => ⟨rfl, rfl, hhead⟩) hfeed hrest]
      · simp [putBreak]
      · exact hindent
    · by_cases hne : c = ' '
      · subst hne
        have hnot : broken = false := Bool.eq_false_iff.2 fun h => (hbroken h).2.2 rfl
        simp only [singleQuotedTail, betweenQuotes, hbreak, hnot, beq_self_eq_true, if_true]
        rw [ih ?_ (by simp) hfeed hrest]
        · simp [put, quotedChar]
        · exact hindent
      · have hstart : (if broken = true then p.toIndent else p).indent = 2 ∧
            (if broken = true then p.toIndent else p).written
              = (if broken = true then pad else []).reverse ++ p.written := by
          cases broken with
          | false => exact ⟨hindent, rfl⟩
          | true =>
            obtain ⟨hfresh, hcolumn, -⟩ := hbroken rfl
            simp [toIndent_broken hindent hfresh hcolumn, pad]
        simp only [singleQuotedTail, betweenQuotes, hbreak, hne, beq_iff_eq, if_false,
          Bool.false_eq_true]
        rw [@ih _ false ?_ (by simp) hfeed hrest]
        · by_cases hq : c = '\'' <;> simp [hq, put, quotedChar, hstart.2]
        · by_cases hq : c = '\'' <;> simp [hq, put, hstart.1]

/-- Whether a text that is written from `broken` on stops behind a break. -/
def stopsBroken (broken : Bool) (text : List Char) : Bool := text.foldl (fun _ c => isBreak c) broken

theorem stopsBroken_of_ne_nil {text : List Char} (h : text ≠ []) (broken : Bool) :
    stopsBroken broken text = (shape text).trailingBreak := by
  obtain ⟨front, c, rfl⟩ := List.eq_nil_or_concat text |>.resolve_left h
  simp [stopsBroken, shape]

/-- Behind a break a block is at the start of a line, else the line is not fresh. -/
theorem literalTail_spec {text : List Char} {broken : Bool} (hindent : p.indent = 2)
    (hspace : p.needsSpace = false) (hfresh : p.fresh = broken)
    (hcolumn : broken = true → p.column = 0) :
    let q := literalTail broken text p
    q.written = (blockText broken text).reverse ++ p.written ∧ q.needsSpace = false ∧
      q.fresh = stopsBroken broken text ∧ (q.fresh = true → q.column = 0) := by
  induction text generalizing broken p with
  | nil => exact ⟨rfl, hspace, hfresh, fun h => hcolumn (hfresh ▸ h)⟩
  | cons c rest ih =>
    by_cases hbreak : isBreak c = true
    · obtain ⟨hwritten, hq⟩ :=
        @ih { p.putBreak c with fresh := true } true hindent hspace rfl fun _ => rfl
      simp only [literalTail, blockText, stopsBroken, List.foldl_cons, hbreak, if_true]
      refine ⟨?_, hq⟩
      rw [hwritten]
      simp [putBreak]
    · have hstart : (if broken = true then p.toIndent else p).indent = 2 ∧
          (if broken = true then p.toIndent else p).needsSpace = false ∧
          (if broken = true then p.toIndent else p).written
            = (if broken = true then pad else []).reverse ++ p.written := by
        cases broken with
        | false => exact ⟨hindent, hspace, rfl⟩
        | true => simp [toIndent_broken hindent hfresh (hcolumn rfl), pad]
      obtain ⟨hwritten, hq⟩ :=
        @ih { (if broken = true then p.toIndent else p).put c with fresh := false } false hstart.1
          hstart.2.1 rfl (by simp)
      simp only [literalTail, blockText, stopsBroken, List.foldl_cons, hbreak, if_false,
        Bool.false_eq_true]
      refine ⟨?_, hq⟩
      rw [hwritten]
      simp [put, hstart.2.2]

@[simp] theorem needsSpace_deeper (least : Int) (flat : Bool) :
    (p.deeper least flat).needsSpace = p.needsSpace := rfl

@[simp] theorem written_deeper (least : Int) (flat : Bool) :
    (p.deeper least flat).written = p.written := rfl

/-- The page where the lines of a block begin. -/
def atBlock (text : List Char) (p : Page) : Page :=
  { written := (' ' :: '|' :: (blockHead text ++ ['\n'])).reverse ++ p.written
    column := 0, indent := p.indent, needsSpace := false, fresh := true }

theorem literal_eq {text : List Char} (hne : text ≠ []) (hspace : p.needsSpace = true) :
    p.literal text = literalTail true text (p.atBlock text) := by
  obtain ⟨c, rest, rfl⟩ := List.exists_cons_of_ne_nil hne
  by_cases hint : (c == ' ' || isBreak c) = true
  · simp [literal, atBlock, blockHead, blockHint, hint, putBreak, hspace]
  · simp [literal, atBlock, blockHead, blockHint, hint, putBreak, hspace]

/-- A value is written with a space in front. Its line is over only behind a block that ends with a
break. -/
theorem string_spec (text : List Char) (hindent : p.indent = 0) (hspace : p.needsSpace = true) :
    let q := p.string false text
    q.written = (' ' :: scalarText text).reverse ++ p.written ∧ q.indent = 0 ∧
      q.fresh = endsLine text ∧ (q.fresh = true → q.column = 0 ∧ q.needsSpace = false) := by
  have hdeeper : (p.deeper 2 false).indent = 2 := by simp [deeper, hindent]
  cases hstyle : styleOf text with
  | plain =>
    have hchosen : chosenStyle (preferredStyle text) false text = .plain := hstyle
    have hne := ne_nil_of_plain hstyle
    simp only [string, scalar, hchosen]
    simp [plain, deeper, hspace, hne, put, putAll, scalarText, hstyle, endsLine, hindent]
  | singleQuoted =>
    have hchosen : chosenStyle (preferredStyle text) false text = .singleQuoted := hstyle
    obtain ⟨hfeed, hadmits⟩ := single_style hstyle
    have hneighbours : anyNeighbours (fun a b => isBreak a && b == ' ') text = false := by
      cases h : anyNeighbours (fun a b => isBreak a && b == ' ') text with
      | false => rfl
      | true => simp [Shape.admitsSingle, shape, h] at hadmits
    have hwritten := @written_singleQuotedTail ((p.deeper 2 false).indicator "'" true false false) text
      false (by simpa using hdeeper) (by simp) hfeed hneighbours
    simp only [string, scalar, hchosen, singleQuoted]
    refine ⟨?_, hindent, by simp [indicator, endsLine, hstyle], by simp [indicator]⟩
    simp [hwritten, scalarText, hstyle, hspace]
  | doubleQuoted =>
    have hchosen : chosenStyle (preferredStyle text) false text = .doubleQuoted := hstyle
    simp only [string, scalar, hchosen, doubleQuoted]
    refine ⟨?_, hindent, by simp [indicator, endsLine, hstyle], by simp [indicator]⟩
    simp [scalarText, hstyle, hspace, putAll, betweenQuotes_double]
  | literal =>
    have hchosen : chosenStyle (preferredStyle text) false text = .literal := hstyle
    have hne := (literal_style hstyle).1
    obtain ⟨hwritten, hneeds, hfresh, hcolumn⟩ :=
      @literalTail_spec ((p.deeper 2 false).atBlock text) text true hdeeper rfl rfl fun _ => rfl
    have hliteral := literal_eq (p := p.deeper 2 false) hne hspace
    simp only [string, scalar, hchosen, hliteral]
    refine ⟨hwritten.trans ?_, hindent, ?_, fun h => ⟨hcolumn h, hneeds⟩⟩
    · simp [atBlock, scalarText, hstyle]
    · exact hfresh.trans (by simp [endsLine, hstyle, stopsBroken_of_ne_nil hne])

/-- Behind a value the next line begins. -/
theorem toIndent_string (text : List Char) (hindent : p.indent = 0) (hspace : p.needsSpace = true) :
    (p.string false text).toIndent
      = line ((' ' :: (scalarText text ++ lineEnd text)).reverse ++ p.written) := by
  obtain ⟨hwritten, hzero, hfresh, hover⟩ := string_spec text hindent hspace
  cases hends : endsLine text with
  | true =>
    obtain ⟨hcolumn, hneeds⟩ := hover (hfresh.trans hends)
    rw [toIndent_of_fresh hzero (hfresh.trans hends) hcolumn hneeds, hwritten]
    simp [lineEnd, hends]
  | false =>
    rw [toIndent_of_not_fresh hzero (hfresh.trans hends), hwritten]
    simp [lineEnd, hends]

/-! ## Mappings of strings -/

theorem isSimpleKey_of_isName {key : String} (h : IsName key) : isSimpleKey key.toList = true := by
  have hbreak : key.toList.any isBreak = false := by
    refine List.any_eq_false.2 fun c hc hbreak => ?_
    have hletter := h.1 c hc
    simp only [isBreak, Bool.or_eq_true, beq_iff_eq] at hbreak
    rcases hbreak with (((rfl | rfl) | rfl) | rfl) | rfl <;> revert hletter <;> decide
  simp [isSimpleKey, hbreak, h.2.2]

/-- A key and its colon at the start of a line. -/
theorem key_name {key : String} (h : IsName key) {front : List Char} (hline : p.toIndent = line front) :
    p.key key.toList
      = ⟨':' :: (key.toList.reverse ++ front), key.toList.length + 1, 0, true, false⟩ := by
  obtain ⟨hpreferred, hadmits⟩ := plain_style h.2.1
  have hne := ne_nil_of_plain h.2.1
  have hchosen : chosenStyle (preferredStyle key.toList) true key.toList = .plain := by
    simp [chosenStyle, hpreferred, hadmits, hne]
  rw [Page.key, hline, isSimpleKey_of_isName h, if_pos rfl, string, scalar, hchosen]
  simp [line, deeper, plain, indicator, putAll]

/-- The entries of a mapping stand one below the other. -/
theorem toIndent_members (fields : List (String × String)) {front : List Char}
    (hnames : ∀ field ∈ fields, IsName field.1) (hline : p.toIndent = line front) :
    (members (stringFields fields) p).toIndent
      = line ((fields.flatMap entryText).reverse ++ front) := by
  induction fields generalizing p front with
  | nil => simpa [stringFields, members] using hline
  | cons field fields ih =>
    obtain ⟨hname, hnames⟩ := List.forall_mem_cons.1 hnames
    have hvalue := toIndent_string (p := p.key field.1.toList) field.2.toList
      (by rw [key_name hname hline]) (by rw [key_name hname hline])
    rw [key_name hname hline] at hvalue
    have hrest := ih hnames hvalue
    simp only [stringFields, List.map_cons, members, value, List.flatMap_cons] at hrest ⊢
    rw [key_name hname hline, hrest]
    simp [entryText]

end Page

/-- The document of a mapping of strings. -/
theorem write_fields {fields : List (String × String)} (hne : fields ≠ [])
    (hnames : ∀ field ∈ fields, IsName field.1) :
    (write (.object (stringFields fields))).toList
      = fields.flatMap entryText := by
  obtain ⟨first, rest, rfl⟩ := List.exists_cons_of_ne_nil hne
  have hline := Page.toIndent_members (p := Page.start.deeper 0 false) (first :: rest) hnames rfl
  have hindent := congrArg Page.indent hline
  rw [Page.indent_toIndent] at hindent
  have hwritten := Page.written_toIndent_outside hindent
  rw [hline] at hwritten
  have hstart : (Page.value false (.object (stringFields (first :: rest))) Page.start).toIndent.written
        = ((first :: rest).flatMap entryText).reverse ++ [] := hwritten
  rw [write, hstart]
  simp

end AgentDocs.Yaml
