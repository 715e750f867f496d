import AgentDocs.Proofs.Yaml.Plain

/-! # Reading literal blocks

A literal block is a run of breaks and then lines with breaks behind them, each line indented. What
stands behind the `|` tells whether the text ends with no break, with one or with more, and, where
the text does not begin with a word, how far its lines are indented. -/
namespace AgentDocs.Yaml
open Pending

/-! ## The head of a block -/

/-- How a text ends, its last character first: without a break, with one, or with more. -/
def endingOf : List Char → Chomping
  | [] => .strip
  | [c] => if isBreak c then .keep else .strip
  | c :: d :: _ => if isBreak c then (if isBreak d then .keep else .clip) else .strip

def ending (text : List Char) : Chomping := endingOf text.reverse

def Chomping.mark : Chomping → List Char
  | .clip => []
  | .strip => ['-']
  | .keep => ['+']

theorem chompingMark_eq (text : List Char) : (Page.chompingMark text).toList = (ending text).mark := by
  unfold Page.chompingMark ending
  match text.reverse with
  | [] => rfl
  | [c] => cases h : isBreak c <;> simp [endingOf, h, Chomping.mark]
  | c :: d :: rest =>
    cases hc : isBreak c <;> cases hd : isBreak d <;> simp [endingOf, hc, hd, Chomping.mark]

theorem blockHint_eq (text : List Char) : blockHint text = [] ∨ blockHint text = ['2'] := by
  unfold blockHint
  split
  · split <;> simp
  · simp

/-- Reading what stands behind the `|`. -/
theorem blockHeader_append {text after : List Char} {c : Cursor}
    (hrest : c.rest = blockHead text ++ '\n' :: after) :
    ∃ d, blockHeader c = some (ending text, if blockHint text = [] then 0 else 2, d) ∧
      d.rest = after ∧ d.column = 0 := by
  obtain ⟨rest, index, line, column⟩ := c
  rw [blockHead, chompingMark_eq] at hrest
  rcases blockHint_eq text with h | h <;> cases hend : ending text <;> rw [h, hend] at hrest <;>
    rw [h] <;> cases hrest <;> exact ⟨_, rfl, rfl, rfl⟩

/-! ## Breaks and indentation -/

/-- Passing over breaks at the start of a line. -/
theorem blockBreaks_breaks {bs rest : List Char}
    (hbs : ∀ b ∈ bs, isBreak b = true ∧ isPrintable b = true) {least fuel widest : Nat}
    {breaks : List Char} {c : Cursor} (hcolumn : c.column = 0) (hrest : c.rest = bs ++ rest) :
    ∃ d, blockBreaks least (bs.length + fuel) 2 widest breaks c
        = blockBreaks least fuel 2 widest (breaks ++ bs) d ∧ d.rest = rest ∧ d.column = 0 := by
  induction bs generalizing breaks c with
  | nil => exact ⟨c, by simp, hrest, hcolumn⟩
  | cons b bs ih =>
    obtain ⟨⟨hb, hprintable⟩, hbs⟩ := List.forall_mem_cons.1 hbs
    have hspace : b ≠ ' ' := by
      rintro rfl
      revert hb
      decide
    have htab : b ≠ '\t' := by
      rintro rfl
      revert hb
      decide
    have hbreak := Cursor.breakLine_cons hrest hb hprintable
    have hstep : blockBreaks least (bs.length + fuel + 1) 2 widest breaks c
        = blockBreaks least (bs.length + fuel) 2 widest (breaks ++ [b])
            ⟨bs ++ rest, c.index + 1, c.line + 1, 0⟩ := by
      rw [blockBreaks]
      simp [hrest, hspace, htab, hcolumn, Cursor.atChar, Cursor.atBreak, hb, hbreak]
    obtain ⟨d, hread, hd⟩ := @ih hbs (breaks ++ [b]) ⟨bs ++ rest, c.index + 1, c.line + 1, 0⟩ rfl rfl
    refine ⟨d, ?_, hd⟩
    rw [List.length_cons, Nat.add_right_comm, hstep, hread]
    simp

/-- Reading the breaks in front of an indented line. -/
theorem blockBreaks_indented {bs after : List Char} {x : Char}
    (hbs : ∀ b ∈ bs, isBreak b = true ∧ isPrintable b = true) (hx : isBreak x = false)
    {least fuel widest : Nat} {breaks : List Char} {c : Cursor} (hcolumn : c.column = 0)
    (hrest : c.rest = bs ++ (pad ++ x :: after)) (hfuel : bs.length < fuel) :
    ∃ d, blockBreaks least fuel 2 widest breaks c = some (2, breaks ++ bs, d) ∧
      d.rest = x :: after ∧ d.column = 2 := by
  obtain ⟨fuel, rfl⟩ : ∃ n, fuel = bs.length + (n + 1) := ⟨fuel - bs.length - 1, by omega⟩
  obtain ⟨d, hread, hd, hline⟩ :=
    @blockBreaks_breaks bs _ hbs least (fuel + 1) widest breaks c hcolumn hrest
  have hspaces : min ((pad ++ x :: after).takeWhile (· == ' ')).length (2 - d.column) = 2 := by
    simp [pad, hline]
  refine ⟨d.move 2, ?_, by simp [hd, pad], by simp [hline]⟩
  rw [hread, blockBreaks, hd, if_neg (show ¬ (2 : Nat) = 0 by decide), hspaces]
  simp [hline, Cursor.atBreak, hd, pad, hx]

/-- Reading the breaks behind the last line. -/
theorem blockBreaks_below {bs below : List Char}
    (hbs : ∀ b ∈ bs, isBreak b = true ∧ isPrintable b = true) (hbelow : startsWord below = true)
    {least fuel widest : Nat} {breaks : List Char} {c : Cursor} (hcolumn : c.column = 0)
    (hrest : c.rest = bs ++ below) (hfuel : bs.length < fuel) :
    ∃ d, blockBreaks least fuel 2 widest breaks c = some (2, breaks ++ bs, d) ∧
      d.rest = below ∧ d.column = 0 := by
  obtain ⟨fuel, rfl⟩ : ∃ n, fuel = bs.length + (n + 1) := ⟨fuel - bs.length - 1, by omega⟩
  obtain ⟨d, hread, hd, hline⟩ :=
    @blockBreaks_breaks bs _ hbs least (fuel + 1) widest breaks c hcolumn hrest
  refine ⟨d, ?_, hd, hline⟩
  rw [hread, blockBreaks, hd]
  cases below with
  | nil => simp [hline, Cursor.atChar, Cursor.atBreak, hd]
  | cons x below =>
    simp only [startsWord, isInner, isGap, Bool.and_eq_true, Bool.not_eq_true', Bool.or_eq_false_iff,
      beq_eq_false_iff_ne] at hbelow
    simp [hline, Cursor.atChar, Cursor.atBreak, hd, hbelow]

/-! ## Lines -/

/-- A printable break. -/
def IsBreaks (bs : List Char) : Prop := ∀ b ∈ bs, isBreak b = true ∧ isPrintable b = true

/-- A line that is not empty. -/
def IsLine (line : List Char) : Prop := line ≠ [] ∧ ∀ c ∈ line, isBreak c = false

/-- Lines with breaks between them; there may be breaks at the end. -/
inductive Lines : List Char → Prop where
  | last {line bs : List Char} (h : IsLine line) (hbs : IsBreaks bs) : Lines (line ++ bs)
  | more {line bs rest : List Char} (b : Char) (h : IsLine line) (hbs : IsBreaks (b :: bs))
      (hrest : Lines rest) : Lines (line ++ (b :: bs ++ rest))

theorem IsLine.exists_cons {line : List Char} (h : IsLine line) :
    ∃ x rest, line = x :: rest ∧ isBreak x = false := by
  obtain ⟨x, rest, rfl⟩ := List.exists_cons_of_ne_nil h.1
  exact ⟨x, rest, rfl, h.2 x List.mem_cons_self⟩

theorem Lines.exists_cons {text : List Char} (h : Lines text) :
    ∃ x rest, text = x :: rest ∧ isBreak x = false := by
  cases h with
  | last h hbs =>
    obtain ⟨x, rest, rfl, hx⟩ := h.exists_cons
    exact ⟨x, _, rfl, hx⟩
  | more b h hbs hrest =>
    obtain ⟨x, rest, rfl, hx⟩ := h.exists_cons
    exact ⟨x, _, rfl, hx⟩

theorem blockText_line {line : List Char} (h : ∀ c ∈ line, isBreak c = false) (rest : List Char) :
    blockText false (line ++ rest) = line ++ blockText false rest := by
  induction line with
  | nil => rfl
  | cons c line ih =>
    obtain ⟨hc, hline⟩ := List.forall_mem_cons.1 h
    simp [blockText, hc, ih hline]

theorem blockText_breaks {bs : List Char} (h : IsBreaks bs) (rest : List Char) :
    blockText true (bs ++ rest) = bs ++ blockText true rest := by
  induction bs with
  | nil => rfl
  | cons b bs ih =>
    obtain ⟨hb, hbs⟩ := List.forall_mem_cons.1 h
    simp [blockText, hb.1, ih hbs]

theorem blockText_end {bs : List Char} (h : IsBreaks bs) : blockText false bs = bs := by
  cases bs with
  | nil => rfl
  | cons b bs =>
    obtain ⟨hb, hbs⟩ := List.forall_mem_cons.1 h
    have hlater := blockText_breaks hbs []
    rw [List.append_nil, blockText, List.append_nil] at hlater
    rw [blockText, if_pos hb.1, hlater]

theorem length_le_blockText {text : List Char} (broken : Bool) :
    text.length ≤ (blockText broken text).length := by
  induction text generalizing broken with
  | nil => exact Nat.zero_le _
  | cons c text ih =>
    have hbroken := ih true
    have hline := ih false
    rw [blockText]
    split
    · simp only [List.length_cons]
      omega
    · simp only [List.length_append, List.length_cons]
      omega

/-- How a text ends is told by its last lines. -/
theorem Lines.ending_append {text : List Char} (h : Lines text) (front : List Char) :
    ending (front ++ text) = ending text := by
  obtain ⟨x, rest, rfl, hx⟩ := h.exists_cons
  rw [ending, ending, List.reverse_append, List.reverse_cons]
  match hrev : rest.reverse with
  | [] =>
    match front.reverse with
    | [] => rfl
    | d :: tail => simp [endingOf, hx]
  | [c] => rfl
  | c :: d :: tail => rfl

theorem IsLine.ending {line : List Char} (h : IsLine line) : ending line = .strip := by
  obtain hnil | ⟨front, c, rfl⟩ := List.eq_nil_or_concat line
  · exact absurd hnil h.1
  · have hc := h.2 c (by simp)
    rw [AgentDocs.Yaml.ending, List.concat_eq_append, List.reverse_append]
    match front.reverse with
    | [] => simp [endingOf, hc]
    | d :: tail => simp [endingOf, hc]

theorem IsLine.ending_break {line : List Char} (h : IsLine line) {b : Char} (hb : isBreak b = true) :
    AgentDocs.Yaml.ending (line ++ [b]) = .clip := by
  obtain hnil | ⟨front, c, rfl⟩ := List.eq_nil_or_concat line
  · exact absurd hnil h.1
  · have hc := h.2 c (by simp)
    simp [AgentDocs.Yaml.ending, endingOf, hb, hc]

theorem ending_breaks {b c : Char} {bs : List Char} (h : IsBreaks (b :: c :: bs)) (front : List Char) :
    ending (front ++ b :: c :: bs) = .keep := by
  have hall : ∀ x ∈ (b :: c :: bs).reverse, isBreak x = true := fun x hx =>
    (h x (List.mem_reverse.1 hx)).1
  have hlength : 2 ≤ (b :: c :: bs).reverse.length := by simp
  rw [ending, List.reverse_append]
  match (b :: c :: bs).reverse, hall, hlength with
  | x :: y :: tail, hall, _ =>
    have hx := hall x (by simp)
    have hy := hall y (by simp)
    simp [endingOf, hx, hy]

/-! ## Reading lines -/

/-- What follows a block: nothing or the end of its line, or the next line if it ended its line. -/
def Follows (text after below : List Char) : Prop :=
  match ending text with
  | .strip => Ends after below
  | _ => after = below ∧ startsWord below = true

/-- The text of a block, last character first, with the breaks behind it that count. -/
def chomped (chomping : Chomping) (leading trailing text : List Char) : List Char :=
  let text := if chomping = .strip then text else leading.reverse ++ text
  if chomping = .keep then trailing.reverse ++ text else text

theorem blockLines_over {chomping : Chomping} {fuel : Nat} {gap : Bool}
    {leading trailing text : List Char} {c : Cursor} (h : c.rest = [] ∨ c.column ≠ 2) :
    blockLines true chomping 2 (fuel + 1) gap leading trailing text c
      = some (String.ofList (chomped chomping leading trailing text).reverse, c) := by
  have hover : (c.column == 2 && !c.rest.isEmpty) = false := by
    rcases h with h | h <;> simp [h]
  rw [blockLines, if_neg (by simp [hover])]
  rfl

/-- Reading a line of a block and the breaks behind it. -/
theorem blockLines_line {line after : List Char} (h : IsLine line)
    (hafter : after.head?.all isBreak = true) {chomping : Chomping} {fuel : Nat} {gap : Bool}
    {leading trailing text : List Char} {c : Cursor} (hcolumn : c.column = 2)
    (hrest : c.rest = line ++ after) {d e : Cursor} {br bs : List Char}
    (hbreak : (c.move line.length).breakLine = (br, d)) {n : Nat}
    (hbreaks : blockBreaks 0 (d.rest.length + 1) 2 0 [] d = some (n, bs, e)) :
    blockLines true chomping 2 (fuel + 1) gap leading trailing text c
      = blockLines true chomping 2 fuel c.atGap br bs
          (line.reverse ++ (trailing.reverse ++ (leading.reverse ++ text))) e := by
  have hgo : (c.column == 2 && !c.rest.isEmpty) = true := by
    simp [hcolumn, hrest, h.1]
  have hline : ∀ x ∈ line, (!isBreak x) = true := fun x hx => by simp [h.2 x hx]
  have hbehind : after.head?.all (fun x => !!isBreak x) = true := by simpa using hafter
  have htake : c.rest.takeWhile (fun x => !isBreak x) = line := by
    rw [hrest, (while_run hline hbehind).1]
  have hmove : c.moveToBreak = c.move line.length := Cursor.moveWhile_run hrest hline hbehind
  rw [blockLines, if_pos hgo, htake, hmove, hbreak]
  simp only [hbreaks, Bool.not_true, Bool.false_and]
  rfl

theorem blockBreaks_nil {least fuel widest : Nat} {breaks : List Char} {c : Cursor} (h : c.rest = []) :
    blockBreaks least (fuel + 1) 2 widest breaks c = some (2, breaks, c) := by
  simp [blockBreaks, h, Cursor.atChar, Cursor.atBreak]

/-- Reading the last line of a block that does not end with a break. -/
theorem blockLines_strip {line after below : List Char} (h : IsLine line) (hends : Ends after below)
    {fuel : Nat} {gap : Bool} {leading trailing front : List Char} {c : Cursor} (hcolumn : c.column = 2)
    (hrest : c.rest = line ++ after) :
    ∃ d, blockLines true .strip 2 (fuel + 2) gap leading trailing front c
        = some (String.ofList (front.reverse ++ leading ++ trailing ++ line), d) ∧
      d.rest = below ∧ (below ≠ [] → d.column = 0) := by
  have hmoved := Cursor.rest_move_of_append hrest
  have hpos : 0 < line.length := List.length_pos_iff.2 h.1
  cases hends with
  | text =>
    have hbreak : (c.move line.length).breakLine = ([], c.move line.length) := by
      simp [Cursor.breakLine, hrest]
    have hread := @blockBreaks_nil 0 (c.move line.length).rest.length 0 [] (c.move line.length) hmoved
    refine ⟨c.move line.length, ?_, hmoved, by simp⟩
    rw [blockLines_line h (by rfl) hcolumn hrest hbreak hread, blockLines_over (.inl hmoved)]
    simp [chomped]
  | line hbelow =>
    have hbreak := Cursor.breakLine_cons hmoved (by decide) (by decide)
    obtain ⟨d, hread, hd, hcolumn'⟩ :=
      @blockBreaks_below [] below (by simp) hbelow 0 (below.length + 1) 0 []
        ⟨below, (c.move line.length).index + 1, (c.move line.length).line + 1, 0⟩ rfl rfl (by simp)
    refine ⟨d, ?_, hd, fun _ => hcolumn'⟩
    rw [blockLines_line h (by rfl) hcolumn hrest hbreak hread, blockLines_over (.inr (by omega))]
    simp [chomped]

/-- Reading the last line of a block and the breaks that end the block. -/
theorem blockLines_breaks {line bs after : List Char} {b : Char} (h : IsLine line)
    (hbs : IsBreaks (b :: bs)) (hbelow : startsWord after = true) {fuel : Nat} {gap : Bool}
    {leading trailing front : List Char} {c : Cursor} (hcolumn : c.column = 2)
    (hrest : c.rest = line ++ b :: (bs ++ after)) :
    ∃ d, blockLines true (ending (line ++ b :: bs)) 2 (fuel + 2) gap leading trailing front c
        = some (String.ofList (front.reverse ++ leading ++ trailing ++ (line ++ b :: bs)), d) ∧
      d.rest = after ∧ d.column = 0 := by
  obtain ⟨⟨hb, hprintable⟩, hlater⟩ := List.forall_mem_cons.1 hbs
  have hbreak := Cursor.breakLine_cons (Cursor.rest_move_of_append hrest) hb hprintable
  obtain ⟨d, hread, hd, hcolumn'⟩ :=
    @blockBreaks_below bs after hlater hbelow 0 ((bs ++ after).length + 1) 0 []
      ⟨bs ++ after, (c.move line.length).index + 1, (c.move line.length).line + 1, 0⟩ rfl rfl
      (by rw [List.length_append]; omega)
  refine ⟨d, ?_, hd, hcolumn'⟩
  rw [blockLines_line h (by simpa using hb) hcolumn hrest hbreak hread,
    blockLines_over (.inr (by omega))]
  cases bs with
  | nil => simp [h.ending_break hb, chomped]
  | cons => simp [ending_breaks hbs, chomped]

theorem blockLines_last {line bs after below : List Char} (h : IsLine line) (hbs : IsBreaks bs)
    (hfollows : Follows (line ++ bs) after below) {fuel : Nat} {gap : Bool}
    {leading trailing front : List Char} {c : Cursor} (hcolumn : c.column = 2)
    (hrest : c.rest = line ++ (bs ++ after)) :
    ∃ d, blockLines true (ending (line ++ bs)) 2 (fuel + 2) gap leading trailing front c
        = some (String.ofList (front.reverse ++ leading ++ trailing ++ (line ++ bs)), d) ∧
      d.rest = below ∧ (below ≠ [] → d.column = 0) := by
  rw [Follows] at hfollows
  cases bs with
  | nil =>
    rw [List.append_nil, h.ending] at hfollows ⊢
    exact blockLines_strip h hfollows hcolumn hrest
  | cons b bs =>
    have hover : after = below ∧ startsWord below = true := by
      cases bs with
      | nil => rwa [h.ending_break (hbs b List.mem_cons_self).1] at hfollows
      | cons => rwa [ending_breaks hbs] at hfollows
    obtain ⟨rfl, hbelow⟩ := hover
    obtain ⟨d, hread, hd, hcolumn'⟩ := blockLines_breaks h hbs hbelow hcolumn hrest
    exact ⟨d, hread, hd, fun _ => hcolumn'⟩

/-- Reading the rest of a block. -/
theorem blockLines_append {text after below : List Char} (h : Lines text)
    (hfollows : Follows text after below) {fuel : Nat} {gap : Bool}
    {leading trailing front : List Char} {c : Cursor} (hcolumn : c.column = 2)
    (hrest : c.rest = blockText false text ++ after) (hfuel : text.length < fuel) :
    ∃ d, blockLines true (ending text) 2 fuel gap leading trailing front c
        = some (String.ofList (front.reverse ++ leading ++ trailing ++ text), d) ∧
      d.rest = below ∧ (below ≠ [] → d.column = 0) := by
  -- a line and the breaks behind it take one round; how the block ends is known from its last line
  induction h generalizing fuel gap leading trailing front c with
  | @last line bs h hbs =>
    have hpos : 0 < line.length := List.length_pos_iff.2 h.1
    obtain ⟨fuel, rfl⟩ : ∃ n, fuel = n + 2 := ⟨fuel - 2, by rw [List.length_append] at hfuel; omega⟩
    rw [blockText_line h.2, blockText_end hbs, List.append_assoc] at hrest
    exact blockLines_last h hbs hfollows hcolumn hrest
  | @more line bs rest b h hbs hlines ih =>
    obtain ⟨fuel, rfl⟩ : ∃ n, fuel = n + 1 := ⟨fuel - 1, by omega⟩
    obtain ⟨x, tail, rfl, hx⟩ := hlines.exists_cons
    obtain ⟨⟨hb, hprintable⟩, hlater⟩ := List.forall_mem_cons.1 hbs
    have hwritten : blockText false (line ++ (b :: bs ++ x :: tail)) ++ after
        = line ++ b :: (bs ++ (pad ++ x :: (blockText false tail ++ after))) := by
      simp [blockText_line h.2, blockText, hb, blockText_breaks hlater, hx]
    rw [hwritten] at hrest
    have hending : ending (line ++ (b :: bs ++ x :: tail)) = ending (x :: tail) := by
      rw [← List.append_assoc, hlines.ending_append]
    have hfollows' : Follows (x :: tail) after below := by rwa [Follows, hending] at hfollows
    have hbreak := Cursor.breakLine_cons (Cursor.rest_move_of_append hrest) hb hprintable
    obtain ⟨d, hread, hd, hcolumn'⟩ :=
      @blockBreaks_indented bs (blockText false tail ++ after) x hlater hx 0
      ((bs ++ (pad ++ x :: (blockText false tail ++ after))).length + 1) 0 []
      ⟨bs ++ (pad ++ x :: (blockText false tail ++ after)), (c.move line.length).index + 1,
        (c.move line.length).line + 1, 0⟩ rfl rfl (by rw [List.length_append]; omega)
    obtain ⟨e, hlast, he⟩ := @ih hfollows' fuel c.atGap [b] bs
      (line.reverse ++ (trailing.reverse ++ (leading.reverse ++ front))) d hcolumn'
      (by rw [hd]; simp [blockText, hx]) (by simp at hfuel ⊢; omega)
    refine ⟨e, ?_, he⟩
    rw [hending, blockLines_line h (by simpa using hb) hcolumn hrest hbreak hread, List.nil_append,
      hlast]
    simp

/-! ## Literal blocks -/

theorem exists_breaks {text : List Char} (h : ∀ c ∈ text, isPrintable c = true) :
    ∃ bs rest, text = bs ++ rest ∧ IsBreaks bs ∧ rest.head?.all (fun c => !isBreak c) = true := by
  obtain ⟨bs, rest, rfl, hbs, hrest⟩ := exists_run isBreak text
  exact ⟨bs, rest, rfl, fun b hb => ⟨hbs b hb, h b (List.mem_append_left _ hb)⟩, hrest⟩

/-- A text that does not begin with a break falls into lines. -/
theorem lines_of_head {x : Char} {tail : List Char} (hx : isBreak x = false)
    (h : ∀ c ∈ x :: tail, isPrintable c = true) : Lines (x :: tail) := by
  obtain ⟨line, rest, htext, hline, hrest⟩ := exists_run (fun c => !isBreak c) (x :: tail)
  have hne : line ≠ [] := by
    rintro rfl
    rw [List.nil_append] at htext
    simp [← htext, hx] at hrest
  have hisLine : IsLine line := ⟨hne, fun c hc => by simpa using hline c hc⟩
  have hprintable : ∀ c ∈ rest, isPrintable c = true := fun c hc => h c (by rw [htext]; simp [hc])
  obtain ⟨bs, rest, rfl, hbs, hhead⟩ := exists_breaks hprintable
  rw [htext]
  cases rest with
  | nil =>
    rw [List.append_nil]
    exact .last hisLine hbs
  | cons y rest =>
    have hy : isBreak y = false := by simpa using hhead
    have hlength : rest.length < tail.length := by
      have hpos := List.length_pos_iff.2 hne
      have hlengths := congrArg List.length htext
      simp only [List.length_cons, List.length_append] at hlengths
      omega
    cases bs with
    | nil => simp [hy] at hrest
    | cons b bs =>
      exact .more b hisLine hbs (lines_of_head hy fun c hc =>
        hprintable c (List.mem_append_right _ hc))
termination_by tail.length

/-- Reading what stands in front of the first line of a block, with its indentation told or not. -/
theorem blockBreaks_start {bs after : List Char} {x : Char} (hbs : IsBreaks bs)
    (hx : isBreak x = false) (hprintable : isPrintable x = true) (tail : List Char) {fuel : Nat}
    {c : Cursor} (hcolumn : c.column = 0) (hrest : c.rest = bs ++ (pad ++ x :: after))
    (hfuel : bs.length < fuel) :
    ∃ d, blockBreaks 1 fuel (if blockHint (bs ++ x :: tail) = [] then 0 else 2) 0 [] c
        = some (2, bs, d) ∧ d.rest = x :: after ∧ d.column = 2 := by
  by_cases hint : blockHint (bs ++ x :: tail) = []
  · have hfirst : bs = [] ∧ x ≠ ' ' := by
      cases bs with
      | nil =>
        refine ⟨rfl, ?_⟩
        rintro rfl
        simp [blockHint] at hint
      | cons b bs => simp [blockHint, (hbs b List.mem_cons_self).1] at hint
    obtain ⟨rfl, hspace⟩ := hfirst
    have htab : x ≠ '\t' := by
      rintro rfl
      revert hprintable
      decide
    obtain ⟨fuel, rfl⟩ : ∃ n, fuel = n + 1 := ⟨fuel - 1, by simp at hfuel; omega⟩
    have hrest' : c.rest = ' ' :: ' ' :: x :: after := hrest
    refine ⟨c.move 2, ?_, by simp [hrest'], by simp [hcolumn]⟩
    rw [if_pos hint, blockBreaks, hrest']
    simp [hspace, htab, hcolumn, hx, Cursor.atChar, Cursor.atBreak, hrest']
  · rw [if_neg hint]
    exact blockBreaks_indented hbs hx hcolumn hrest hfuel

/-- Behind its header a block begins with breaks, and its lines follow. -/
theorem blockScalar_header {text after : List Char} {c : Cursor}
    (hrest : c.rest = blockHead text ++ '\n' :: after) :
    ∃ d : Cursor, d.rest = after ∧ d.column = 0 ∧ blockScalar true 0 c =
      (blockBreaks 1 (d.rest.length + 1) (if blockHint text = [] then 0 else 2) 0 [] d).bind
        fun (indent, breaks, e) =>
          blockLines true (ending text) indent (e.rest.length + 1) false [] breaks [] e := by
  obtain ⟨d, hheader, hd, hcolumn⟩ := blockHeader_append hrest
  refine ⟨d, hd, hcolumn, ?_⟩
  have hstart : (if (if blockHint text = [] then 0 else 2) = 0 then 0
      else Int.toNat 0 + (if blockHint text = [] then 0 else 2))
        = if blockHint text = [] then 0 else 2 := by
    split <;> rfl
  rw [blockScalar, hheader]
  simp only [Option.bind_eq_bind, Option.bind_some, hstart]
  rfl

/-- A block of breaks alone keeps them all. -/
theorem blockScalar_breaks {bs after below : List Char} (hne : bs ≠ []) (hbs : IsBreaks bs)
    (hfollows : Follows bs after below) {c : Cursor}
    (hrest : c.rest = blockHead bs ++ '\n' :: (bs ++ after)) :
    ∃ d, blockScalar true 0 c = some (String.ofList bs, d) ∧ d.rest = below ∧ d.column = 0 := by
  obtain ⟨b, bs, rfl⟩ := List.exists_cons_of_ne_nil hne
  have hint : blockHint (b :: bs) = ['2'] := by simp [blockHint, (hbs b List.mem_cons_self).1]
  have hkeep : ending (b :: bs) = .keep := by
    cases bs with
    | nil => simp [ending, endingOf, (hbs b List.mem_cons_self).1]
    | cons => exact ending_breaks hbs []
  rw [Follows, hkeep] at hfollows
  obtain ⟨rfl, hbelow⟩ := hfollows
  obtain ⟨d, hd, hcolumn, hblock⟩ := blockScalar_header hrest
  obtain ⟨e, hread, he, hcolumn'⟩ :=
    @blockBreaks_below _ after hbs hbelow 1 (d.rest.length + 1) 0 [] d
      hcolumn hd (by rw [hd, List.length_append]; omega)
  refine ⟨e, ?_, he, hcolumn'⟩
  rw [hblock, hint, if_neg (List.cons_ne_nil _ _), hread]
  simp only [Option.bind_some, hkeep]
  rw [blockLines_over (.inr (by omega))]
  simp [chomped]

/-- A block with lines is read up to the last of them and what ends it. -/
theorem blockScalar_lines {bs tail after below : List Char} {x : Char} (hbs : IsBreaks bs)
    (hx : isBreak x = false) (hprintable : ∀ c ∈ x :: tail, isPrintable c = true)
    (hfollows : Follows (bs ++ x :: tail) after below) {c : Cursor}
    (hrest : c.rest = blockHead (bs ++ x :: tail)
      ++ '\n' :: (bs ++ (pad ++ x :: (blockText false tail ++ after)))) :
    ∃ d, blockScalar true 0 c = some (String.ofList (bs ++ x :: tail), d) ∧ d.rest = below ∧
      (below ≠ [] → d.column = 0) := by
  have hlines := lines_of_head hx hprintable
  have hending := hlines.ending_append bs
  have hwritten : blockText false (x :: tail) ++ after = x :: (blockText false tail ++ after) := by
    simp [blockText, hx]
  have hlength := @length_le_blockText (x :: tail) false
  obtain ⟨d, hd, hcolumn, hblock⟩ := blockScalar_header hrest
  obtain ⟨e, hread, he, hcolumn'⟩ := @blockBreaks_start bs _ x hbs hx (hprintable x (by simp)) tail
    (d.rest.length + 1) d hcolumn hd (by rw [hd, List.length_append]; omega)
  rw [Follows, hending] at hfollows
  obtain ⟨f, hlast, hf⟩ :=
    @blockLines_append _ after below hlines hfollows (e.rest.length + 1) false [] bs []
      e hcolumn' (by rw [he, hwritten]) (by rw [he, ← hwritten, List.length_append]; omega)
  refine ⟨f, ?_, hf⟩
  rw [hblock, hread]
  simp only [Option.bind_some, hending]
  rw [hlast]
  simp

/-- A literal block is read as it was written, with the end of its line. -/
theorem blockScalar_append {text after below : List Char} (hne : text ≠ [])
    (hadmits : (shape text).admitsBlock = true) (hfollows : Follows text after below) {c : Cursor}
    (hrest : c.rest = blockHead text ++ '\n' :: (blockText true text ++ after)) :
    ∃ d, blockScalar true 0 c = some (String.ofList text, d) ∧ d.rest = below ∧
      (below ≠ [] → d.column = 0) := by
  have hprintable : ∀ c ∈ text, isPrintable c = true := by
    simp only [Shape.admitsBlock, shape, Bool.not_eq_true', Bool.or_eq_false_iff] at hadmits
    exact fun c hc => by simpa using List.any_eq_false.1 hadmits.2 c hc
  obtain ⟨bs, rest, rfl, hbs, hhead⟩ := exists_breaks hprintable
  rw [blockText_breaks hbs, List.append_assoc] at hrest
  cases rest with
  | nil =>
    rw [List.append_nil] at hne hfollows hrest ⊢
    obtain ⟨d, hread, hd, hcolumn⟩ := blockScalar_breaks hne hbs hfollows hrest
    exact ⟨d, hread, hd, fun _ => hcolumn⟩
  | cons x tail =>
    have hx : isBreak x = false := by simpa using hhead
    have hwritten : blockText true (x :: tail) ++ after = pad ++ x :: (blockText false tail ++ after) := by
      simp [blockText, hx]
    rw [hwritten] at hrest
    exact blockScalar_lines hbs hx (fun c hc => hprintable c (List.mem_append_right _ hc)) hfollows hrest

end AgentDocs.Yaml
