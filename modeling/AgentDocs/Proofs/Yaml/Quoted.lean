import AgentDocs.Proofs.Yaml.Escape
import AgentDocs.Proofs.Yaml.Plain

/-! # Reading quoted texts

Between quotes a text is a row of words with gaps between them. Between double quotes all gaps are
spaces; between single quotes some are breaks, behind which the next line is indented. Reading a
word gives back its characters, and reading a gap gives back its spaces or breaks without the
indentation. -/
namespace AgentDocs.Yaml
open Pending

/-! ## Words between quotes -/

/-- A character of a word between quotes. -/
def isQuoted (single : Bool) (c : Char) : Bool := if single then isInner c else c != ' '

/-- Whether a word between quotes stops here: at a gap, at a break, or at the closing quote. -/
def stopsQuoted (single : Bool) : List Char → Bool
  | [] => true
  | c :: rest => isGap c || isBreak c ||
      (if single then c == '\'' && rest.head? != some '\'' else c == '"')

theorem quotedWord_stop {single : Bool} {fuel : Nat} {c : Cursor} {p : Pending}
    (h : stopsQuoted single c.rest = true) : quotedWord single fuel c p = some (c, p) := by
  cases fuel with
  | zero => rfl
  | succ fuel =>
    cases hrest : c.rest with
    | nil => simp [quotedWord, hrest]
    | cons x rest =>
      rw [hrest] at h
      by_cases hgap : (isGap x || isBreak x) = true
      · simp only [quotedWord, hrest, hgap, if_true]
      · have hword : (isGap x || isBreak x) = false := by simpa using hgap
        rw [stopsQuoted, hword, Bool.false_or] at h
        cases single with
        | true =>
          obtain ⟨hx, hnext⟩ := Bool.and_eq_true_iff.1 h
          cases rest with
          | nil => simp [quotedWord, hrest, hword, hx]
          | cons y rest =>
            have hy : y ≠ '\'' := by simpa using hnext
            simp [quotedWord, hrest, hword, hx, hy]
        | false =>
          obtain rfl : x = '"' := by simpa using h
          simp [quotedWord, hrest, hword]

theorem quotedWord_char {single : Bool} {x : Char} (hx : isQuoted single x = true) {after : List Char}
    {fuel : Nat} {c : Cursor} {p : Pending} (hrest : c.rest = quotedChar single x ++ after) :
    quotedWord single (fuel + 1) c p
      = quotedWord single fuel (c.move (quotedChar single x).length) (p.push x) := by
  cases single with
  | true =>
    have hinner : (isGap x || isBreak x) = false := by
      simpa [isQuoted, isInner] using hx
    by_cases hquote : x = '\''
    · subst hquote
      simp [quotedWord, hrest, quotedChar, hinner]
    · simp [quotedWord, hrest, quotedChar, hinner, hquote]
  | false =>
    by_cases hbare : isBare x = true
    · have hspace : x ≠ ' ' := by simpa [isQuoted] using hx
      have hgap : isGap x = false := by
        have htab : x ≠ '\t' := by
          rintro rfl
          revert hbare
          decide
        simp [isGap, hspace, htab]
      have hchar : quotedChar false x = [x] := escaped_of_isBare hbare
      simp only [isBare, Bool.and_eq_true, Bool.not_eq_true', bne_iff_ne] at hbare
      simp [quotedWord, hrest, hchar, hgap, hbare]
    · obtain ⟨y, rest, hchar, hbreak, hread⟩ := escaped_of_not_isBare (Bool.eq_false_iff.2 hbare)
      have hline : isBreak '\\' = false := by decide
      have hgap : isGap '\\' = false := by decide
      have hwritten : quotedChar false x = '\\' :: y :: rest := hchar
      simp only [quotedWord, hrest, hwritten, List.cons_append, hline, hgap, hbreak]
      rw [← List.cons_append, hread]
      simp

theorem quotedWord_append {single : Bool} {word after : List Char}
    (hword : ∀ c ∈ word, isQuoted single c = true) (hstop : stopsQuoted single after = true)
    {fuel : Nat} {c : Cursor} {text : List Char}
    (hrest : c.rest = word.flatMap (quotedChar single) ++ after) (hfuel : word.length ≤ fuel) :
    quotedWord single fuel c (settled text)
      = some (c.move (word.flatMap (quotedChar single)).length, settled (word.reverse ++ text)) := by
  induction word generalizing fuel c text with
  | nil => exact quotedWord_stop (by rw [hrest]; exact hstop)
  | cons x word ih =>
    obtain ⟨hx, hword⟩ := List.forall_mem_cons.1 hword
    obtain ⟨fuel, rfl⟩ : ∃ n, fuel = n + 1 := ⟨fuel - 1, by simp at hfuel; omega⟩
    rw [List.flatMap_cons, List.append_assoc] at hrest
    rw [quotedWord_char hx hrest, push_settled,
      ih hword (Cursor.rest_move_of_append hrest) (by simpa using hfuel)]
    simp

/-! ## Gaps between quotes -/

theorem quotedGaps_stop {fuel : Nat} {c : Cursor} {p : Pending} (h : startsWord c.rest = true) :
    quotedGaps fuel c p = (c, p) := by
  cases fuel with
  | zero => rfl
  | succ fuel =>
    cases hrest : c.rest with
    | nil => simp [quotedGaps, hrest]
    | cons x rest =>
      rw [hrest] at h
      simp only [startsWord, isInner, Bool.and_eq_true, Bool.not_eq_true'] at h
      simp [quotedGaps, hrest, h]

/-- Reading the spaces between two words. -/
theorem quotedGaps_spaces {gap : Nat} {after : List Char} (hafter : startsWord after = true)
    {fuel : Nat} {c : Cursor} {text gaps : List Char}
    (hrest : c.rest = List.replicate gap ' ' ++ after) (hfuel : gap ≤ fuel) :
    quotedGaps fuel c ⟨text, gaps, [], [], false⟩
      = (c.move gap, ⟨text, List.replicate gap ' ' ++ gaps, [], [], false⟩) := by
  induction gap generalizing fuel c gaps with
  | zero => exact quotedGaps_stop (by rw [hrest]; exact hafter)
  | succ gap ih =>
    obtain ⟨fuel, rfl⟩ : ∃ n, fuel = n + 1 := ⟨fuel - 1, by omega⟩
    have hstep : quotedGaps (fuel + 1) c ⟨text, gaps, [], [], false⟩
        = quotedGaps fuel (c.move 1) ⟨text, ' ' :: gaps, [], [], false⟩ := by
      simp [quotedGaps, hrest, List.replicate_succ, isGap, Pending.gap]
    rw [hstep, ih (by simp [hrest, List.replicate_succ]) (by omega), Cursor.move_move, Nat.add_comm,
      List.append_cons, ← List.replicate_succ']

/-- A space behind a break is indentation. -/
theorem quotedGaps_indent {fuel : Nat} {c : Cursor} {p : Pending} {after : List Char}
    (hbroken : p.broken = true) (hrest : c.rest = ' ' :: after) :
    quotedGaps (fuel + 1) c p = quotedGaps fuel (c.move 1) p := by
  have hgap : p.gap ' ' = p := by rw [Pending.gap, if_pos hbroken]
  rw [quotedGaps, hrest]
  simp only [isGap, hgap]
  rfl

/-- Reading breaks and the indentation behind them. -/
theorem quotedGaps_breaks {bs after : List Char}
    (hbs : ∀ b ∈ bs, isBreak b = true ∧ isPrintable b = true) (hafter : startsWord after = true)
    {fuel : Nat} {c : Cursor} {p : Pending} (hbroken : p.broken = true)
    (hrest : c.rest = bs ++ pad ++ after) (hfuel : bs.length + 2 ≤ fuel) :
    ∃ d, quotedGaps fuel c p = (d, { p with later := p.later ++ bs }) ∧ d.rest = after ∧
      0 < d.column := by
  induction bs generalizing fuel c p with
  | nil =>
    obtain ⟨fuel, rfl⟩ : ∃ n, fuel = n + 2 := ⟨fuel - 2, by omega⟩
    refine ⟨c.move 2, ?_, by simp [hrest, pad], by simp⟩
    have hfirst : c.rest = ' ' :: ' ' :: after := by simp [hrest, pad]
    have hsecond : (c.move 1).rest = ' ' :: after := by simp [hfirst]
    have hthird : ((c.move 1).move 1).rest = after := by simp [hfirst]
    rw [quotedGaps_indent hbroken hfirst, quotedGaps_indent hbroken hsecond,
      quotedGaps_stop (by rw [hthird]; exact hafter), Cursor.move_move, List.append_nil]
  | cons b bs ih =>
    obtain ⟨hb, hbs⟩ := List.forall_mem_cons.1 hbs
    obtain ⟨fuel, rfl⟩ : ∃ n, fuel = n + 1 := ⟨fuel - 1, by omega⟩
    have hbreak := Cursor.breakLine_cons hrest hb.1 hb.2
    have hgap := isGap_of_isBreak hb.1
    have hstep : quotedGaps (fuel + 1) c p
        = quotedGaps fuel ⟨bs ++ pad ++ after, c.index + 1, c.line + 1, 0⟩
            { p with later := p.later ++ [b] } := by
      rw [quotedGaps, hrest]
      simp only [List.cons_append, hgap, hb.1, hbreak, Pending.lineBreak, hbroken]
      rfl
    obtain ⟨d, hread, hd⟩ := @ih hbs fuel ⟨bs ++ pad ++ after, c.index + 1, c.line + 1, 0⟩
      { p with later := p.later ++ [b] } hbroken rfl (by simp at hfuel; omega)
    refine ⟨d, ?_, hd⟩
    rw [hstep, hread]
    simp

/-- Reading a run of breaks and the indentation behind them. -/
theorem quotedGaps_run {b : Char} {bs after : List Char}
    (hbs : ∀ c ∈ bs, isBreak c = true ∧ isPrintable c = true) (hb : isBreak b = true)
    (hprintable : isPrintable b = true) (hafter : startsWord after = true) {c : Cursor}
    (text : List Char) (hrest : c.rest = b :: (bs ++ pad ++ after)) :
    ∃ d, quotedGaps (b :: (bs ++ pad ++ after)).length c (settled text)
        = (d, ⟨text, [], [b], bs, true⟩) ∧ d.rest = after ∧ 0 < d.column := by
  have hbreak := Cursor.breakLine_cons hrest hb hprintable
  obtain ⟨d, hread, hd⟩ := @quotedGaps_breaks bs after hbs hafter (bs ++ pad ++ after).length
    ⟨bs ++ pad ++ after, c.index + 1, c.line + 1, 0⟩ ⟨text, [], [b], [], true⟩ rfl rfl
    (by simp [pad])
  refine ⟨d, ?_, hd⟩
  rw [List.length_cons, quotedGaps, hrest]
  simp only [isGap_of_isBreak hb, hb, hbreak, if_true]
  exact hread

theorem settle_breaks {b : Char} (hfeed : b ≠ '\n') (text bs : List Char) :
    (Pending.mk text [] [b] bs true).settle = settled ((b :: bs).reverse ++ text) := by
  simp [settle, settled, hfeed]

/-! ## Rows of words between quotes -/

/-- A break that a text in single quotes may have: no line feed. -/
def isKeptBreak (c : Char) : Bool := isBreak c && isPrintable c && c != '\n'

/-- Words between quotes with gaps between them; there may be a gap in front and at the end. -/
inductive Pieces (single : Bool) : List Char → Prop where
  | word {word : List Char} (h : ∀ c ∈ word, isQuoted single c = true) : Pieces single word
  | spaces {word rest : List Char} (gap : Nat) (h : ∀ c ∈ word, isQuoted single c = true)
      (hnext : rest.head?.all (isQuoted single) = true) (hrest : Pieces single rest) :
      Pieces single (word ++ (List.replicate (gap + 1) ' ' ++ rest))
  | breaks {word bs rest : List Char} (b : Char) (hsingle : single = true)
      (h : ∀ c ∈ word, isQuoted single c = true) (hbs : ∀ c ∈ b :: bs, isKeptBreak c = true)
      (hnext : rest.head?.all (isQuoted single) = true) (hrest : Pieces single rest) :
      Pieces single (word ++ (b :: bs ++ rest))

theorem quotedChar_space (single : Bool) : quotedChar single ' ' = [' '] := by
  cases single <;> decide

theorem betweenQuotes_word {single : Bool} {word : List Char}
    (h : ∀ c ∈ word, isQuoted single c = true) (rest : List Char) :
    betweenQuotes single false (word ++ rest)
      = word.flatMap (quotedChar single) ++ betweenQuotes single false rest := by
  induction word with
  | nil => rfl
  | cons c word ih =>
    obtain ⟨hc, hword⟩ := List.forall_mem_cons.1 h
    have hbreak : (single && isBreak c) = false := by
      cases single with
      | false => rfl
      | true =>
        simp only [isQuoted, isInner, if_true, Bool.and_eq_true, Bool.not_eq_true'] at hc
        exact hc.2
    simp [betweenQuotes, hbreak, ih hword]

theorem betweenQuotes_spaces (single : Bool) (gap : Nat) (rest : List Char) :
    betweenQuotes single false (List.replicate gap ' ' ++ rest)
      = List.replicate gap ' ' ++ betweenQuotes single false rest := by
  have hbreak : isBreak ' ' = false := by decide
  induction gap with
  | zero => rfl
  | succ gap ih => simp [List.replicate_succ, betweenQuotes, hbreak, quotedChar_space, ih]

theorem betweenQuotes_breaks {bs : List Char} (hbs : ∀ c ∈ bs, isBreak c = true) {rest : List Char}
    (hnext : rest.head?.all (isQuoted true) = true) :
    betweenQuotes true true (bs ++ rest) = bs ++ pad ++ betweenQuotes true false rest := by
  induction bs with
  | nil =>
    cases rest with
    | nil => rfl
    | cons c rest =>
      have hbreak : isBreak c = false := by
        simp only [List.head?_cons, Option.all_some, isQuoted, isInner, if_true, Bool.and_eq_true,
          Bool.not_eq_true'] at hnext
        exact hnext.2
      simp [betweenQuotes, hbreak]
  | cons b bs ih =>
    obtain ⟨hb, hbs⟩ := List.forall_mem_cons.1 hbs
    simp [betweenQuotes, hb, ih hbs]

/-- The closing quote. -/
def quoteMark (single : Bool) : Char := if single then '\'' else '"'

theorem exists_quotedChar {single : Bool} {c : Char} (h : isQuoted single c = true) :
    ∃ x rest, quotedChar single c = x :: rest ∧ isInner x = true := by
  cases single with
  | true =>
    by_cases hquote : c = '\''
    · subst hquote
      exact ⟨'\'', ['\''], rfl, by decide⟩
    · exact ⟨c, [], by simp [quotedChar, hquote], h⟩
  | false =>
    cases hbare : isBare c with
    | true =>
      have hspace : c ≠ ' ' := by simpa [isQuoted] using h
      have htab : c ≠ '\t' := by
        rintro rfl
        revert hbare
        decide
      refine ⟨c, [], escaped_of_isBare hbare, ?_⟩
      simp only [isBare, Bool.and_eq_true, Bool.not_eq_true'] at hbare
      simp [isInner, isGap, hspace, htab, hbare]
    | false =>
      obtain ⟨y, rest, hchar, -⟩ := escaped_of_not_isBare hbare
      exact ⟨'\\', y :: rest, hchar, by decide⟩

/-- A text between quotes goes on with a word where it does not go on with a gap. -/
theorem startsWord_betweenQuotes {single : Bool} {rest : List Char}
    (hnext : rest.head?.all (isQuoted single) = true) (after : List Char) :
    startsWord (betweenQuotes single false rest ++ quoteMark single :: after) = true := by
  cases rest with
  | nil => cases single <;> rfl
  | cons c rest =>
    have hc : isQuoted single c = true := hnext
    obtain ⟨x, xs, hchar, hx⟩ := exists_quotedChar hc
    have hword := @betweenQuotes_word single [c] (by simpa using hc) rest
    rw [List.singleton_append] at hword
    simp [hword, hchar, startsWord, hx]

theorem length_le_flatMap (single : Bool) (text : List Char) :
    text.length ≤ (text.flatMap (quotedChar single)).length := by
  induction text with
  | nil => exact Nat.le_refl _
  | cons c text ih =>
    have hpos : 0 < (quotedChar single c).length := by
      cases single with
      | true =>
        by_cases hquote : c = '\'' <;> simp [quotedChar, hquote]
      | false =>
        cases hbare : isBare c with
        | true => simp [quotedChar, escaped_of_isBare hbare]
        | false =>
          obtain ⟨y, rest, hchar, -⟩ := escaped_of_not_isBare hbare
          simp [quotedChar, hchar]
    rw [List.flatMap_cons, List.length_append, List.length_cons]
    omega

/-- A round reads a word and then goes on at the closing quote or a gap. -/
theorem quotedWords_word {single : Bool} {word after : List Char}
    (hword : ∀ c ∈ word, isQuoted single c = true) (hstop : stopsQuoted single after = true)
    (hne : after ≠ []) {fuel : Nat} {c : Cursor} {text : List Char} (hcolumn : 0 < c.column)
    (hrest : c.rest = word.flatMap (quotedChar single) ++ after) :
    quotedWords single (fuel + 1) c (settled text) =
      let d := c.move (word.flatMap (quotedChar single)).length
      let p := settled (word.reverse ++ text)
      if after.head? == some (quoteMark single) then some (d.move 1, p)
      else quotedWords single fuel (quotedGaps after.length d p).1
        (quotedGaps after.length d p).2.settle := by
  have hstart : (c.atMarker || c.rest.isEmpty) = false := by
    simp [Cursor.atMarker_of_column_pos hcolumn, hrest, hne]
  have hlength : word.length ≤ c.rest.length := by
    have hle := length_le_flatMap single word
    rw [hrest, List.length_append]
    omega
  have hread := @quotedWord_append single word after hword hstop c.rest.length c text hrest hlength
  rw [quotedWords, if_neg (by simp [hstart]), hread]
  have hmoved := Cursor.rest_move_of_append hrest
  simp only [Option.bind_eq_bind, Option.bind_some, Cursor.atChar, hmoved, quoteMark]
  rfl

/-- A round at the end of the text. -/
theorem quotedWords_last {single : Bool} {word after : List Char}
    (hword : ∀ c ∈ word, isQuoted single c = true)
    (hafter : single = true → after.head? ≠ some '\'') {fuel : Nat} {c : Cursor} {text : List Char}
    (hcolumn : 0 < c.column)
    (hrest : c.rest = word.flatMap (quotedChar single) ++ quoteMark single :: after) :
    ∃ d, quotedWords single (fuel + 1) c (settled text) = some (d, settled (word.reverse ++ text)) ∧
      d.rest = after := by
  have hstop : stopsQuoted single (quoteMark single :: after) = true := by
    cases single with
    | true => simpa [stopsQuoted, quoteMark] using .inr (hafter rfl)
    | false => rfl
  rw [quotedWords_word hword hstop (List.cons_ne_nil _ _) hcolumn hrest]
  refine ⟨_, if_pos (by simp), ?_⟩
  rw [Cursor.rest_move, Cursor.rest_move_of_append hrest]
  rfl

/-- A round that ends behind a gap. -/
theorem quotedWords_gap {single : Bool} {word after : List Char}
    (hword : ∀ c ∈ word, isQuoted single c = true) {x : Char}
    (hx : (isGap x || isBreak x) = true) {fuel : Nat} {c d : Cursor} {text : List Char} {p : Pending}
    (hcolumn : 0 < c.column) (hrest : c.rest = word.flatMap (quotedChar single) ++ x :: after)
    (hgaps : quotedGaps (x :: after).length (c.move (word.flatMap (quotedChar single)).length)
      (settled (word.reverse ++ text)) = (d, p)) :
    quotedWords single (fuel + 1) c (settled text) = quotedWords single fuel d p.settle := by
  have hstop : stopsQuoted single (x :: after) = true := by
    rw [stopsQuoted, hx, Bool.true_or]
  have hquote : ((x :: after).head? == some (quoteMark single)) = false := by
    have hne : x ≠ quoteMark single := by
      rintro rfl
      cases single <;> revert hx <;> decide
    simpa using hne
  rw [quotedWords_word hword hstop (List.cons_ne_nil _ _) hcolumn hrest]
  simp only [hquote, hgaps]
  rfl

/-- Reading the rest of a quoted text and its closing quote. -/
theorem quotedWords_append {single : Bool} {text after : List Char} (h : Pieces single text)
    (hafter : single = true → after.head? ≠ some '\'') {fuel : Nat} {c : Cursor} {front : List Char}
    (hcolumn : 0 < c.column) (hfuel : text.length < fuel)
    (hrest : c.rest = betweenQuotes single false text ++ quoteMark single :: after) :
    ∃ d, quotedWords single fuel c (settled front) = some (d, settled (text.reverse ++ front)) ∧
      d.rest = after := by
  induction h generalizing fuel c front with
  | @word word h =>
    obtain ⟨fuel, rfl⟩ : ∃ n, fuel = n + 1 := ⟨fuel - 1, by omega⟩
    have hwritten := betweenQuotes_word h []
    rw [List.append_nil, betweenQuotes, if_neg (by simp), List.append_nil] at hwritten
    rw [hwritten] at hrest
    exact quotedWords_last h hafter hcolumn hrest
  | @spaces word rest gap h hnext hpieces ih =>
    obtain ⟨fuel, rfl⟩ : ∃ n, fuel = n + 1 := ⟨fuel - 1, by omega⟩
    rw [betweenQuotes_word h, betweenQuotes_spaces, List.append_assoc, List.append_assoc] at hrest
    have hmoved := Cursor.rest_move_of_append hrest
    have hgaps : quotedGaps (' ' :: (List.replicate gap ' ' ++ (betweenQuotes single false rest
        ++ quoteMark single :: after))).length (c.move (word.flatMap (quotedChar single)).length)
        (settled (word.reverse ++ front)) = _ :=
      quotedGaps_spaces (startsWord_betweenQuotes hnext after) hmoved (by simp)
    have hbehind := Cursor.rest_move_of_append hmoved
    rw [List.length_replicate] at hbehind
    obtain ⟨d, hread, hd⟩ := @ih fuel _ (List.replicate (gap + 1) ' ' ++ (word.reverse ++ front))
      (by rw [Cursor.column_move, Cursor.column_move]; omega) (by simp at hfuel; omega) hbehind
    refine ⟨d, ?_, hd⟩
    rw [quotedWords_gap h (by decide) hcolumn hrest hgaps, settle_gaps, List.append_nil, hread]
    simp
  | @breaks word bs rest b hsingle h hbs hnext hpieces ih =>
    obtain ⟨fuel, rfl⟩ : ∃ n, fuel = n + 1 := ⟨fuel - 1, by omega⟩
    subst hsingle
    simp only [isKeptBreak, Bool.and_eq_true, bne_iff_ne] at hbs
    have hbreaks : ∀ c ∈ b :: bs, isBreak c = true := fun c hc => (hbs c hc).1.1
    obtain ⟨⟨⟨hb, hprintable⟩, hfeed⟩, hlater⟩ := List.forall_mem_cons.1 hbs
    have hwritten : betweenQuotes true false (b :: bs ++ rest)
        = b :: (bs ++ pad ++ betweenQuotes true false rest) := by
      have hrest := betweenQuotes_breaks (fun c hc => hbreaks c (List.mem_cons_of_mem _ hc)) hnext
      simp [betweenQuotes, hb, hrest]
    rw [betweenQuotes_word h, hwritten, List.append_assoc, List.cons_append,
      List.append_assoc (bs ++ pad)] at hrest
    have hmoved := Cursor.rest_move_of_append hrest
    obtain ⟨d, hread, hd, hcolumn'⟩ := quotedGaps_run (fun c hc => (hlater c hc).1) hb hprintable
      (startsWord_betweenQuotes hnext after) (word.reverse ++ front) hmoved
    obtain ⟨e, hrest', he⟩ := @ih fuel d (bs.reverse ++ b :: (word.reverse ++ front)) hcolumn'
      (by simp at hfuel; omega) hd
    refine ⟨e, ?_, he⟩
    rw [quotedWords_gap h (by simp [hb]) hcolumn hrest hread, settle_breaks hfeed, List.reverse_cons,
      List.append_assoc, List.singleton_append, hrest']
    simp

/-! ## The pieces of a text -/

theorem pieces_double (text : List Char) : Pieces false text := by
  obtain ⟨word, rest, htext, hword, hrest⟩ := exists_word text
  have hquoted : ∀ c ∈ word, isQuoted false c = true := fun c hc => by
    simpa [isQuoted] using hword c hc
  obtain rfl | ⟨rest, rfl⟩ := hrest
  · rw [htext, List.append_nil]
    exact .word hquoted
  · obtain ⟨gap, rest, rfl, hhead⟩ := exists_spaces rest
    have hlength : rest.length < text.length := by
      rw [htext]
      simp only [List.length_append, List.length_cons]
      omega
    have hnext : rest.head?.all (isQuoted false) = true := by
      cases rest with
      | nil => rfl
      | cons c rest => simpa [isQuoted] using hhead
    rw [htext]
    exact .spaces gap hquoted hnext (pieces_double rest)
termination_by text.length

theorem anyNeighbours_tail {r : Char → Char → Bool} {a : Char} {rest : List Char}
    (h : anyNeighbours r (a :: rest) = false) : anyNeighbours r rest = false := by
  cases rest with
  | nil => rfl
  | cons b rest => exact (Bool.or_eq_false_iff.1 h).2

theorem anyNeighbours_suffix {r : Char → Char → Bool} {front rest : List Char}
    (h : anyNeighbours r (front ++ rest) = false) : anyNeighbours r rest = false := by
  induction front with
  | nil => exact h
  | cons a front ih => exact ih (anyNeighbours_tail h)

theorem of_anyNeighbours {r : Char → Char → Bool} {a b : Char} {rest : List Char}
    (h : anyNeighbours r (a :: b :: rest) = false) : r a b = false :=
  (Bool.or_eq_false_iff.1 h).1

/-- What single quotes admit: no spaces at a break. -/
structure Calm (text : List Char) : Prop where
  printable : ∀ c ∈ text, isPrintable c = true ∧ c ≠ '\n'
  breakSpace : anyNeighbours (fun a b => isBreak a && b == ' ') text = false
  spaceBreak : anyNeighbours (fun a b => a == ' ' && isBreak b) text = false

theorem Calm.suffix {front rest : List Char} (h : Calm (front ++ rest)) : Calm rest :=
  ⟨fun c hc => h.printable c (List.mem_append_right _ hc), anyNeighbours_suffix h.breakSpace,
    anyNeighbours_suffix h.spaceBreak⟩

theorem Calm.inner_or {c : Char} {text : List Char} (h : Calm text) (hc : c ∈ text) :
    c = ' ' ∨ isBreak c = true ∨ isInner c = true := by
  have htab : c ≠ '\t' := by
    rintro rfl
    have := (h.printable _ hc).1
    revert this
    decide
  by_cases hspace : c = ' '
  · exact .inl hspace
  · cases hbreak : isBreak c <;> simp [isInner, isGap, hspace, htab, hbreak]

/-- Behind spaces a calm text goes on with a word. -/
theorem Calm.quoted_of_spaces {gap : Nat} {rest : List Char}
    (h : Calm (' ' :: (List.replicate gap ' ' ++ rest))) (hhead : rest.head? ≠ some ' ') :
    rest.head?.all (isQuoted true) = true := by
  rw [cons_spaces] at h
  cases rest with
  | nil => rfl
  | cons c rest =>
    have hbreak : isBreak c = false := of_anyNeighbours (anyNeighbours_suffix h.spaceBreak)
    have hspace : c ≠ ' ' := by simpa using hhead
    obtain hc | hc | hc := h.suffix.inner_or (List.mem_cons_of_mem _ List.mem_cons_self)
    · exact absurd hc hspace
    · rw [hbreak] at hc
      cases hc
    · exact hc

/-- Behind breaks a calm text goes on with a word. -/
theorem Calm.quoted_of_breaks {b : Char} {bs rest : List Char} (h : Calm (b :: bs ++ rest))
    (hbs : ∀ c ∈ b :: bs, isBreak c = true) (hhead : rest.head?.all (fun c => !isBreak c) = true) :
    rest.head?.all (isQuoted true) = true := by
  cases rest with
  | nil => rfl
  | cons c rest =>
    obtain hnil | ⟨front, last, hlast⟩ := List.eq_nil_or_concat (b :: bs)
    · cases hnil
    · have hbreak := hbs last (by rw [hlast]; simp)
      rw [hlast, List.concat_eq_append, List.append_assoc] at h
      have hneighbours := of_anyNeighbours (anyNeighbours_suffix h.breakSpace)
      have hspace : c ≠ ' ' := by simpa [hbreak] using hneighbours
      have hc : isBreak c = false := by simpa using hhead
      obtain hc' | hc' | hc' := h.suffix.inner_or (List.mem_cons_of_mem _ List.mem_cons_self)
      · exact absurd hc' hspace
      · rw [hc] at hc'
        cases hc'
      · exact hc'

theorem Calm.pieces {text : List Char} (h : Calm text) : Pieces true text := by
  obtain ⟨word, rest, htext, hword, hrest⟩ := exists_run isInner text
  have hquoted : ∀ c ∈ word, isQuoted true c = true := hword
  have hsuffix : Calm rest := (htext ▸ h).suffix
  cases rest with
  | nil =>
    rw [htext, List.append_nil]
    exact .word hquoted
  | cons x rest =>
    have hx : isInner x = false := by simpa using hrest
    obtain rfl | hbreak | hinner := hsuffix.inner_or List.mem_cons_self
    · obtain ⟨gap, rest, rfl, hhead⟩ := exists_spaces rest
      have hlength : rest.length < text.length := by
        rw [htext]
        simp only [List.length_append, List.length_cons]
        omega
      have hnext := hsuffix.quoted_of_spaces hhead
      rw [← List.cons_append] at hsuffix
      rw [htext]
      exact .spaces gap hquoted hnext hsuffix.suffix.pieces
    · obtain ⟨bs, rest, rfl, hbs, hhead⟩ := exists_run isBreak rest
      have hlength : rest.length < text.length := by
        rw [htext]
        simp only [List.length_append, List.length_cons]
        omega
      have hbreaks : ∀ c ∈ x :: bs, isBreak c = true := List.forall_mem_cons.2 ⟨hbreak, hbs⟩
      rw [← List.cons_append] at hsuffix
      have hnext := hsuffix.quoted_of_breaks hbreaks hhead
      have hkept : ∀ c ∈ x :: bs, isKeptBreak c = true := by
        intro c hc
        obtain ⟨hprintable, hfeed⟩ := hsuffix.printable c (List.mem_append_left _ hc)
        simp [isKeptBreak, hbreaks c hc, hprintable, hfeed]
      rw [htext]
      exact .breaks x rfl hquoted hkept hnext hsuffix.suffix.pieces
    · rw [hinner] at hx
      cases hx
termination_by text.length

theorem calm_of_admitsSingle {text : List Char} (hfeed : '\n' ∉ text)
    (h : (shape text).admitsSingle = true) : Calm text := by
  simp only [Shape.admitsSingle, shape, Bool.not_eq_true', Bool.or_eq_false_iff] at h
  obtain ⟨⟨hbreakSpace, hspaceBreak⟩, hprintable⟩ := h
  refine ⟨fun c hc => ⟨?_, fun heq => hfeed (heq ▸ hc)⟩, hbreakSpace, hspaceBreak⟩
  simpa using List.any_eq_false.1 hprintable c hc

/-! ## Quoted texts -/

theorem length_le_betweenQuotes {single : Bool} {text : List Char} (broken : Bool) :
    text.length ≤ (betweenQuotes single broken text).length := by
  induction text generalizing broken with
  | nil => exact Nat.zero_le _
  | cons c text ih =>
    have hchar := length_le_flatMap single [c]
    have hbroken := ih true
    have hword := ih false
    rw [betweenQuotes]
    split
    · simp only [List.length_cons]
      omega
    · simp only [List.length_append, List.length_cons, List.flatMap_cons, List.flatMap_nil,
        List.append_nil, List.length_nil] at hchar ⊢
      omega

/-- A quoted text is read as it was written. -/
theorem quotedScalar_append {single : Bool} {text after : List Char} (h : Pieces single text)
    (hafter : single = true → after.head? ≠ some '\'') {c : Cursor} (hcolumn : 0 < c.column)
    (hrest : c.rest = betweenQuotes single false text ++ quoteMark single :: after) :
    ∃ d, quotedScalar single c = some (String.ofList text, d) ∧ d.rest = after := by
  have hlength := @length_le_betweenQuotes single text false
  obtain ⟨d, hread, hd⟩ := @quotedWords_append single text after h hafter (c.rest.length + 1) c []
    hcolumn (by rw [hrest, List.length_append]; omega) hrest
  have hempty : Pending.empty = settled [] := rfl
  refine ⟨d, ?_, hd⟩
  rw [quotedScalar, hempty, hread]
  simp [Pending.result]

end AgentDocs.Yaml
