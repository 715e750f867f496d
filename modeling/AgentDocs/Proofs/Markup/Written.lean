import AgentDocs.Proofs.Markup.Scan

/-! # Snippets as they are written

A snippet may be written with blanks around each of its parts, its arguments with or without quotes,
and the last of them with a comma behind it. However it is written, a scan finds its name, its
arguments and its span. -/
namespace AgentDocs.Markup
open Text

/-- Blanks that may stand between the parts of a snippet. -/
structure Blanks where
  chars : List Char
  blank : ∀ c ∈ chars, isSpace c = true

/-- The blanks of a text that has nothing else. -/
def Blanks.of (chars : List Char) (h : chars.all isSpace = true) : Blanks :=
  ⟨chars, List.all_eq_true.1 h⟩

/-- An argument between quotes, or without them. -/
inductive WrittenArgument where
  | quoted (text : List Char) (closed : '"' ∉ text)
  | bare (text : List Char) (nonempty : text ≠ []) (plain : ∀ c ∈ text, isArgumentChar c = true)
    (unquoted : text.head? ≠ some '"')

namespace WrittenArgument

def value : WrittenArgument → List Char
  | quoted text _ => text
  | bare text _ _ _ => text

def chars : WrittenArgument → List Char
  | quoted text _ => '"' :: text ++ ['"']
  | bare text _ _ _ => text

end WrittenArgument

structure PaddedArgument where
  before : Blanks
  argument : WrittenArgument
  behind : Blanks

def PaddedArgument.chars (a : PaddedArgument) : List Char :=
  a.before.chars ++ a.argument.chars ++ a.behind.chars

/-- What stands between the colon and the closing braces. -/
structure WrittenArguments where
  items : List PaddedArgument
  /-- The blanks before a comma behind all arguments, if there is one. -/
  comma : Option Blanks
  behind : Blanks

namespace WrittenArguments

def values (w : WrittenArguments) : List (List Char) := w.items.map (·.argument.value)

/-- What stands behind the last argument. -/
def ending (w : WrittenArguments) : List Char :=
  (w.comma.elim [] fun blanks => blanks.chars ++ [',']) ++ w.behind.chars

def chars (w : WrittenArguments) : List Char :=
  join [','] (w.items.map PaddedArgument.chars) ++ w.ending

end WrittenArguments

structure WrittenSnippet where
  name : List Char
  nonempty : name ≠ []
  plain : ∀ c ∈ name, isNameChar c = true
  before : Blanks
  behind : Blanks
  /-- Only a snippet without arguments may have no colon. -/
  arguments : Option WrittenArguments

namespace WrittenSnippet

def values (w : WrittenSnippet) : List (List Char) := w.arguments.elim [] (·.values)

/-- What stands between the braces. -/
def inside (w : WrittenSnippet) : List Char :=
  w.before.chars ++ w.name ++ w.behind.chars
    ++ w.arguments.elim [] fun arguments => ':' :: arguments.chars

def chars (w : WrittenSnippet) : List Char := '{' :: '{' :: w.inside ++ ['}', '}']

end WrittenSnippet

/-! ## Runs of characters -/

/-- Whether a run of characters ends where a text begins. -/
def Stops (p : Char → Bool) (cs : List Char) : Prop := ∀ c ∈ cs.head?, p c = false

theorem stops_cons {p : Char → Bool} {c : Char} {rest : List Char} (h : p c = false) :
    Stops p (c :: rest) := by
  intro d hd
  cases hd
  exact h

theorem takeWhile_run {p : Char → Bool} {run rest : List Char} (hrun : ∀ c ∈ run, p c = true)
    (hrest : Stops p rest) : (run ++ rest).takeWhile p = run := by
  have hnone : rest.takeWhile p = [] := by
    cases rest with
    | nil => rfl
    | cons c rest => simp [hrest c rfl]
  rw [List.takeWhile_append_of_pos hrun, hnone, List.append_nil]

theorem dropWhile_run {p : Char → Bool} {run rest : List Char} (hrun : ∀ c ∈ run, p c = true)
    (hrest : Stops p rest) : (run ++ rest).dropWhile p = rest := by
  rw [List.dropWhile_append_of_pos hrun]
  cases rest with
  | nil => rfl
  | cons c rest => simp [hrest c rfl]

theorem skipSpace_blanks (b : Blanks) {rest : List Char} (h : Stops isSpace rest) :
    skipSpace (b.chars ++ rest) = rest := dropWhile_run b.blank h

theorem not_isSpace_of_isNameChar {c : Char} (h : isNameChar c = true) : isSpace c = false := by
  simp only [isNameChar, Bool.and_eq_true, Bool.not_eq_true'] at h
  exact h.2

theorem not_isSpace_of_isArgumentChar {c : Char} (h : isArgumentChar c = true) :
    isSpace c = false := by
  simp only [isArgumentChar, Bool.and_eq_true, Bool.not_eq_true'] at h
  exact h.2

/-- Blanks belong to no name and to no argument, so a run of either ends before them. -/
theorem stops_blanks {p : Char → Bool} (hp : ∀ c, isSpace c = true → p c = false) (b : Blanks)
    {rest : List Char} (h : Stops p rest) : Stops p (b.chars ++ rest) := by
  cases hb : b.chars with
  | nil => exact h
  | cons c cs => exact stops_cons (hp c (b.blank c (hb ▸ List.mem_cons_self)))

theorem not_isNameChar_of_isSpace (c : Char) (h : isSpace c = true) : isNameChar c = false := by
  simp [isNameChar, h]

theorem not_isArgumentChar_of_isSpace (c : Char) (h : isSpace c = true) :
    isArgumentChar c = false := by
  simp [isArgumentChar, h]

/-! ## Reading an argument -/

namespace WrittenArgument

/-- An argument begins with a character that is no blank, and no closing brace. -/
theorem exists_chars_eq (a : WrittenArgument) :
    ∃ c cs, a.chars = c :: cs ∧ isSpace c = false ∧ c ≠ '}' := by
  cases a with
  | quoted text closed => exact ⟨'"', text ++ ['"'], rfl, by decide, by decide⟩
  | bare text nonempty plain unquoted =>
    obtain ⟨c, cs, rfl⟩ := List.exists_cons_of_ne_nil nonempty
    have hc := plain c List.mem_cons_self
    refine ⟨c, cs, rfl, not_isSpace_of_isArgumentChar hc, ?_⟩
    rintro rfl
    exact absurd hc (by decide)

theorem argument_chars (a : WrittenArgument) {rest : List Char} (h : Stops isArgumentChar rest) :
    argument (a.chars ++ rest) = (some a.value, rest) := by
  cases a with
  | quoted text closed =>
    have htext : (quoted text closed).chars ++ rest = '"' :: (text ++ '"' :: rest) := by
      simp [chars]
    rw [htext, argument, splitOnce_append closed]
    rfl
  | bare text nonempty plain unquoted =>
    change argument (text ++ rest) = (some text, rest)
    unfold argument
    split
    · rename_i after heq
      obtain ⟨c, cs, rfl⟩ := List.exists_cons_of_ne_nil nonempty
      exact absurd (congrArg some (List.head_eq_of_cons_eq heq)) unquoted
    · rw [takeWhile_run plain h, dropWhile_run plain h]
      split
      · exact absurd rfl nonempty
      · rfl

end WrittenArgument

/-! ## Reading arguments -/

theorem arguments_of_close? {cs : List Char} (h : (close? (skipSpace cs)).isSome = true) :
    arguments cs = ([], skipSpace cs) := by
  rw [arguments.eq_def]
  split
  · rename_i hs
    rw [hs]
  · rename_i c rest hs
    rw [hs] at h ⊢
    rw [if_pos h]

theorem arguments_of_comma {cs tail : List Char} {found : Option (List Char)} {c : Char}
    {rest : List Char} (hs : skipSpace cs = c :: rest) (hclose : close? (c :: rest) = none)
    (h : paddedArgument (c :: rest) = (found, ',' :: tail)) :
    arguments cs = (found.toList ++ (arguments tail).1, (arguments tail).2) := by
  rw [arguments.eq_def]
  split
  · rename_i hs'
    cases hs.symm.trans hs'
  · rename_i c' rest' hs'
    cases hs.symm.trans hs'
    rw [if_neg (by rw [hclose]; exact Bool.false_ne_true)]
    split
    · rename_i found' tail' h'
      cases h.symm.trans h'
      rfl
    · rename_i found' tail' hne h'
      cases h.symm.trans h'
      exact absurd rfl (hne tail)

theorem arguments_of_last {cs tail : List Char} {found : Option (List Char)} {c : Char}
    {rest : List Char} (hs : skipSpace cs = c :: rest) (hclose : close? (c :: rest) = none)
    (h : paddedArgument (c :: rest) = (found, '}' :: tail)) :
    arguments cs = (found.toList, '}' :: tail) := by
  rw [arguments.eq_def]
  split
  · rename_i hs'
    cases hs.symm.trans hs'
  · rename_i c' rest' hs'
    cases hs.symm.trans hs'
    rw [if_neg (by rw [hclose]; exact Bool.false_ne_true)]
    split
    · rename_i found' tail' h'
      cases h.symm.trans h'
    · rename_i found' tail' hne h'
      cases h.symm.trans h'
      rfl

/-- Blanks before the closing braces. -/
theorem arguments_blanks (b : Blanks) (rest : List Char) :
    arguments (b.chars ++ '}' :: '}' :: rest) = ([], '}' :: '}' :: rest) := by
  have hskip : skipSpace (b.chars ++ '}' :: '}' :: rest) = '}' :: '}' :: rest :=
    skipSpace_blanks b (stops_cons (by decide))
  rw [arguments_of_close? (by rw [hskip]; rfl), hskip]

/-- An argument is read up to the next character that is neither one of an argument nor a blank. -/
theorem PaddedArgument.exists_read (a : PaddedArgument) (b : Blanks) {d : Char} (rest : List Char)
    (hspace : isSpace d = false) (hargument : isArgumentChar d = false) :
    ∃ c cs, skipSpace (a.chars ++ (b.chars ++ d :: rest)) = c :: cs ∧ close? (c :: cs) = none ∧
      paddedArgument (c :: cs) = (some a.argument.value, d :: rest) := by
  obtain ⟨c, cs, hchars, hfirst, hne⟩ := a.argument.exists_chars_eq
  let behind : Blanks := ⟨a.behind.chars ++ b.chars, fun c hc =>
    (List.mem_append.1 hc).elim (a.behind.blank c) (b.blank c)⟩
  have htext : a.chars ++ (b.chars ++ d :: rest)
      = a.before.chars ++ (a.argument.chars ++ (behind.chars ++ d :: rest)) := by
    simp [PaddedArgument.chars, behind]
  have hbehind : Stops isArgumentChar (behind.chars ++ d :: rest) :=
    stops_blanks not_isArgumentChar_of_isSpace _ (stops_cons hargument)
  refine ⟨c, cs ++ (behind.chars ++ d :: rest), ?_, ?_, ?_⟩
  · rw [htext, hchars]
    exact skipSpace_blanks _ (stops_cons hfirst)
  · cases h : close? (c :: (cs ++ (behind.chars ++ d :: rest))) with
    | none => rfl
    | some after => exact absurd (List.head_eq_of_cons_eq (close?_eq_some_iff.1 h)) hne
  · rw [← List.cons_append, ← hchars, paddedArgument, a.argument.argument_chars hbehind,
      skipSpace_blanks _ (stops_cons hspace)]

/-- The argument in front of a comma is read, and then what is behind the comma. -/
theorem PaddedArgument.arguments_comma (a : PaddedArgument) (b : Blanks) (rest : List Char) :
    arguments (a.chars ++ (b.chars ++ ',' :: rest))
      = (a.argument.value :: (arguments rest).1, (arguments rest).2) := by
  obtain ⟨c, cs, hskip, hclose, hread⟩ :=
    a.exists_read b (d := ',') rest (by decide) (by decide)
  exact arguments_of_comma hskip hclose hread

/-- The last argument, with the closing braces behind it. -/
theorem PaddedArgument.arguments_last (a : PaddedArgument) (b : Blanks) (rest : List Char) :
    arguments (a.chars ++ (b.chars ++ '}' :: '}' :: rest))
      = ([a.argument.value], '}' :: '}' :: rest) := by
  obtain ⟨c, cs, hskip, hclose, hread⟩ :=
    a.exists_read b (d := '}') ('}' :: rest) (by decide) (by decide)
  exact arguments_of_last hskip hclose hread

/-- A comma without an argument in front of it gives no argument. -/
theorem arguments_lone_comma (b : Blanks) (rest : List Char) :
    arguments (b.chars ++ ',' :: rest) = arguments rest := by
  have hskip : skipSpace (b.chars ++ ',' :: rest) = ',' :: rest :=
    skipSpace_blanks b (stops_cons (by decide))
  have hread : paddedArgument (',' :: rest) = (none, ',' :: rest) := rfl
  rw [arguments_of_comma hskip rfl hread]
  rfl

theorem WrittenArguments.arguments_ending (w : WrittenArguments) (rest : List Char) :
    arguments (w.ending ++ '}' :: '}' :: rest) = ([], '}' :: '}' :: rest) := by
  rw [ending]
  cases w.comma with
  | none => exact arguments_blanks _ rest
  | some b =>
    have htext : (b.chars ++ [',']) ++ w.behind.chars ++ '}' :: '}' :: rest
        = b.chars ++ ',' :: (w.behind.chars ++ '}' :: '}' :: rest) := by simp
    rw [Option.elim_some, htext, arguments_lone_comma, arguments_blanks]

/-- By induction on the arguments; what is behind the last one is the same for all. -/
theorem WrittenArguments.arguments_chars (w : WrittenArguments) (rest : List Char) :
    arguments (w.chars ++ '}' :: '}' :: rest) = (w.values, '}' :: '}' :: rest) := by
  obtain ⟨items, comma, behind⟩ := w
  rw [chars, values]
  dsimp only
  induction items with
  | nil => exact arguments_ending ⟨[], comma, behind⟩ rest
  | cons a items ih =>
    cases items with
    | cons next items =>
      let none : Blanks := ⟨[], List.forall_mem_nil _⟩
      have hcomma := a.arguments_comma none
        (join [','] ((next :: items).map PaddedArgument.chars)
          ++ ending ⟨next :: items, comma, behind⟩ ++ '}' :: '}' :: rest)
      rw [ih] at hcomma
      refine Eq.trans (congrArg arguments ?_) hcomma
      simp [join, none, ending]
    | nil =>
      cases comma with
      | none => exact Eq.trans (congrArg arguments (by simp [join, ending])) (a.arguments_last behind rest)
      | some b =>
        have hcomma := a.arguments_comma b (behind.chars ++ '}' :: '}' :: rest)
        rw [arguments_blanks] at hcomma
        exact Eq.trans (congrArg arguments (by simp [join, ending])) hcomma

/-! ## Reading a snippet -/

namespace WrittenSnippet

/-- The name with the blanks around it is read up to the colon or the closing braces. -/
theorem name?_chars (w : WrittenSnippet) {c : Char} (rest : List Char) (hspace : isSpace c = false)
    (hname : isNameChar c = false) :
    name? (w.before.chars ++ (w.name ++ (w.behind.chars ++ c :: rest))) = some (w.name, c :: rest) := by
  have hfirst : Stops isSpace (w.name ++ (w.behind.chars ++ c :: rest)) := by
    obtain ⟨d, cs, hd⟩ := List.exists_cons_of_ne_nil w.nonempty
    rw [hd]
    exact stops_cons (not_isSpace_of_isNameChar (w.plain d (hd ▸ List.mem_cons_self)))
  have hbehind : Stops isNameChar (w.behind.chars ++ c :: rest) :=
    stops_blanks not_isNameChar_of_isSpace _ (stops_cons hname)
  unfold name?
  dsimp only
  rw [skipSpace_blanks _ hfirst, takeWhile_run w.plain hbehind, dropWhile_run w.plain hbehind,
    skipSpace_blanks _ (stops_cons hspace)]
  split
  · exact absurd ‹_› w.nonempty
  · rfl

theorem snippetBody?_inside (w : WrittenSnippet) (rest : List Char) :
    snippetBody? (w.inside ++ '}' :: '}' :: rest) = some ((w.name, w.values), rest) := by
  have hclose : close? (skipSpace ('}' :: '}' :: rest)) = some rest := rfl
  unfold snippetBody? inside values
  cases w.arguments with
  | none =>
    have hname := w.name?_chars (c := '}') ('}' :: rest) (by decide) (by decide)
    simp only [Option.elim_none, List.append_nil, List.append_assoc, hname, Option.bind_eq_bind,
      Option.bind_some, Option.pure_def]
    rfl
  | some arguments =>
    have hname := w.name?_chars (c := ':') (arguments.chars ++ '}' :: '}' :: rest)
      (by decide) (by decide)
    simp only [Option.elim_some, List.append_assoc, List.cons_append, hname, Option.bind_eq_bind,
      Option.bind_some, arguments.arguments_chars, hclose, Option.pure_def]

/-- The first snippet of a text is the one that is written there, whatever stands behind it, if no
brace opens before it. -/
theorem first_of_written (w : WrittenSnippet) (front rest : List Char) (hfront : '{' ∉ front) :
    (snippetsIn (front ++ w.chars ++ rest)).head? = some ⟨String.ofList w.name,
      w.values.map String.ofList, ⟨width front, width (front ++ w.chars)⟩⟩ := by
  have hopened : opened? snippetBody? (w.chars ++ rest) = some ((w.name, w.values), rest) := by
    have htext : w.chars ++ rest = '{' :: '{' :: (w.inside ++ '}' :: '}' :: rest) := by
      simp [chars]
    rw [htext]
    exact w.snippetBody?_inside rest
  have hwidth : width (w.chars ++ rest) - width rest = width w.chars := by
    rw [width_append, Nat.add_sub_cancel]
  rw [snippetsIn, List.append_assoc, scan_append hfront, scan_found hopened, hwidth, Nat.zero_add,
    width_append]
  rfl

/-- Two arguments, one of them with braces and a comma between its quotes, and a comma behind. -/
def braced : WrittenSnippet where
  name := "print".toList
  nonempty := by decide
  plain := List.all_eq_true.1 (by decide)
  before := .of [' '] rfl
  behind := .of ['\t'] rfl
  arguments := some
    { items := [
        ⟨.of ['\n'] rfl, .quoted "a\x7d\x7d, b".toList (by decide), .of [] rfl⟩,
        ⟨.of [' '] rfl, .bare "x\"y".toList (by decide) (List.all_eq_true.1 (by decide)) (by decide),
          .of [] rfl⟩]
      comma := some (.of [' '] rfl)
      behind := .of [' '] rfl }

theorem first_of_braced :
    '{' ∉ "ž ".toList ∧
      (snippetsIn ("ž \x7b\x7b print\t:\n\"a\x7d\x7d, b\", x\"y , \x7d\x7d \x7b\x7bz\x7d\x7d").toList).head?
        = some ⟨"print", ["a\x7d\x7d, b", "x\"y"], ⟨3, 32⟩⟩ := by
  refine ⟨by decide, ?_⟩
  exact braced.first_of_written "ž ".toList " \x7b\x7bz\x7d\x7d".toList (by decide)

end WrittenSnippet
end AgentDocs.Markup
