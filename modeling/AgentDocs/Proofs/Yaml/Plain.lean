import AgentDocs.Proofs.Yaml.Written
import AgentDocs.Yaml.Lexer

/-! # Reading plain texts

A text that is written without quotes is a row of words with spaces between them. Reading gathers
the words with their spaces and stops at the end of the line, for the next line stands further
left. -/
namespace AgentDocs.Yaml

/-- A run of characters of one class ends where a character is not of the class. -/
theorem while_run {p : Char → Bool} {run after : List Char} (hrun : ∀ x ∈ run, p x = true)
    (hafter : after.head?.all (fun x => !p x) = true) :
    (run ++ after).takeWhile p = run ∧ (run ++ after).dropWhile p = after := by
  rw [List.takeWhile_append_of_pos hrun, List.dropWhile_append_of_pos hrun]
  cases after with
  | nil => simp
  | cons x after =>
    have hx : p x = false := by simpa using hafter
    simp [hx]

namespace Cursor
variable {c : Cursor}

/-! ## Moving -/

@[simp] theorem rest_move (n : Nat) (c : Cursor) : (c.move n).rest = c.rest.drop n := rfl

@[simp] theorem column_move (n : Nat) (c : Cursor) : (c.move n).column = c.column + n := rfl

@[simp] theorem line_move (n : Nat) (c : Cursor) : (c.move n).line = c.line := rfl

@[simp] theorem index_move (n : Nat) (c : Cursor) : (c.move n).index = c.index + n := rfl

@[simp] theorem move_zero (c : Cursor) : c.move 0 = c := rfl

@[simp] theorem move_move (m n : Nat) (c : Cursor) : (c.move m).move n = c.move (m + n) := by
  simp [move, Nat.add_assoc]

theorem rest_move_of_append {front after : List Char} (h : c.rest = front ++ after) :
    (c.move front.length).rest = after := by
  simp [h]

theorem moveWhile_run {p : Char → Bool} {run after : List Char} (hrest : c.rest = run ++ after)
    (hrun : ∀ x ∈ run, p x = true) (hafter : after.head?.all (fun x => !p x) = true) :
    c.moveWhile p = c.move run.length := by
  obtain ⟨htake, hdrop⟩ := while_run hrun hafter
  rw [moveWhile, move, hrest, htake, hdrop, List.drop_left]

/-- A break that is printable is kept, and the next line begins behind it. -/
theorem breakLine_cons {b : Char} {after : List Char} (h : c.rest = b :: after)
    (hbreak : isBreak b = true) (hprintable : isPrintable b = true) :
    c.breakLine = ([b], ⟨after, c.index + 1, c.line + 1, 0⟩) := by
  have hkept : b ≠ '\r' ∧ b ≠ '\u0085' := by
    refine ⟨?_, ?_⟩ <;> rintro rfl <;> revert hprintable <;> decide
  by_cases hfeed : b = '\n'
  · subst hfeed
    simp [breakLine, h]
  · simp [breakLine, h, hfeed, hkept, hbreak]

/-- No marker is found inside a line. -/
theorem atMarker_of_column_pos (h : 0 < c.column) : c.atMarker = false := by
  have hne : c.column ≠ 0 := by omega
  simp [atMarker, hne]

end Cursor

/-! ## Words -/

theorem isGap_of_isBreak {c : Char} (h : isBreak c = true) : isGap c = false := by
  simp only [isBreak, Bool.or_eq_true, beq_iff_eq] at h
  rcases h with (((rfl | rfl) | rfl) | rfl) | rfl <;> decide

/-- A character inside a word. -/
def isInner (c : Char) : Bool := !isGap c && !isBreak c

/-- Whether a text ends the word before it: at a gap, at a break, or at a colon that stands alone. -/
def stopsWord : List Char → Bool
  | [] => true
  | c :: rest => isGap c || isBreak c || (c == ':' && endsWord rest)

/-- A word of a plain text. -/
structure IsWord (word : List Char) : Prop where
  inner : ∀ c ∈ word, isInner c = true
  first : word.head?.any (· != '#') = true
  last : word.getLast? ≠ some ':'

theorem not_stopsWord_of_isInner {c : Char} {rest after : List Char} (hc : isInner c = true)
    (hrest : ∀ d ∈ rest, isInner d = true) (hlast : (c :: rest).getLast? ≠ some ':') :
    stopsWord (c :: rest ++ after) = false := by
  simp only [isInner, Bool.and_eq_true, Bool.not_eq_true'] at hc
  cases rest with
  | nil =>
    have hcolon : c ≠ ':' := by simpa using hlast
    simp [stopsWord, hc, hcolon]
  | cons d rest =>
    have hd := hrest d List.mem_cons_self
    simp only [isInner, Bool.and_eq_true, Bool.not_eq_true'] at hd
    simp [stopsWord, endsWord, hc, hd]

theorem plainWord_stop {fuel : Nat} {c : Cursor} {p : Pending} (h : stopsWord c.rest = true) :
    plainWord false fuel c p = some (c, p) := by
  cases fuel with
  | zero => rfl
  | succ fuel =>
    cases hrest : c.rest with
    | nil => simp [plainWord, hrest]
    | cons x rest =>
      rw [hrest] at h
      simp only [stopsWord, Bool.or_eq_true] at h
      rcases h with h | h <;> simp [plainWord, hrest, h]

theorem plainWord_step {fuel : Nat} {c : Cursor} {p : Pending} {x : Char} {rest : List Char}
    (hrest : c.rest = x :: rest) (h : stopsWord (x :: rest) = false) :
    plainWord false (fuel + 1) c p = plainWord false fuel (c.move 1) (p.settle.push x) := by
  simp only [stopsWord, Bool.or_eq_false_iff] at h
  simp [plainWord, hrest, h]

namespace Pending

/-- Text with nothing that waits. -/
def settled (text : List Char) : Pending := ⟨text, [], [], [], false⟩

theorem settle_eq (p : Pending) : p.settle = settled p.settle.text := rfl

@[simp] theorem settle_settled (text : List Char) : (settled text).settle = settled text := rfl

@[simp] theorem push_settled (text : List Char) (c : Char) :
    (settled text).push c = settled (c :: text) := rfl

@[simp] theorem text_settled (text : List Char) : (settled text).text = text := rfl

theorem settle_gaps (text gaps : List Char) :
    (Pending.mk text gaps [] [] false).settle = settled (gaps ++ text) := by
  simp [settle, settled]

end Pending
open Pending

/-- Reading a word up to where it stops. -/
theorem plainWord_append {word after : List Char} (hne : word ≠ [])
    (hinner : ∀ c ∈ word, isInner c = true) (hlast : word.getLast? ≠ some ':')
    (hstop : stopsWord after = true) {fuel : Nat} {c : Cursor} {p : Pending}
    (hrest : c.rest = word ++ after) (hfuel : word.length ≤ fuel) :
    plainWord false fuel c p
      = some (c.move word.length, settled (word.reverse ++ p.settle.text)) := by
  induction word generalizing fuel c p with
  | nil => exact absurd rfl hne
  | cons x word ih =>
    obtain ⟨hx, hword⟩ := List.forall_mem_cons.1 hinner
    obtain ⟨fuel, rfl⟩ : ∃ n, fuel = n + 1 := ⟨fuel - 1, by simp at hfuel; omega⟩
    rw [plainWord_step hrest (not_stopsWord_of_isInner hx hword hlast), p.settle_eq, push_settled]
    have hmoved : (c.move 1).rest = word ++ after := by simp [hrest]
    cases word with
    | nil =>
      rw [plainWord_stop (by rw [hmoved]; exact hstop)]
      simp
    | cons y word =>
      rw [ih (List.cons_ne_nil _ _) hword (by simpa using hlast) hmoved (by simpa using hfuel)]
      simp [Nat.add_comm]

/-! ## Rows of words -/

/-- Words with spaces between them. -/
inductive Words : List Char → Prop where
  | last {word : List Char} (h : IsWord word) : Words word
  | more {word rest : List Char} (gap : Nat) (h : IsWord word) (hrest : Words rest) :
      Words (word ++ List.replicate (gap + 1) ' ' ++ rest)

theorem IsWord.exists_cons {word : List Char} (h : IsWord word) :
    ∃ c rest, word = c :: rest ∧ isInner c = true ∧ c ≠ '#' := by
  cases word with
  | nil => exact absurd h.first (by decide)
  | cons c rest => exact ⟨c, rest, rfl, h.inner c List.mem_cons_self, by simpa using h.first⟩

theorem Words.exists_cons {text : List Char} (h : Words text) :
    ∃ c rest, text = c :: rest ∧ isInner c = true ∧ c ≠ '#' := by
  cases h with
  | last h => exact h.exists_cons
  | more gap h _ =>
    obtain ⟨c, rest, rfl, hc⟩ := h.exists_cons
    exact ⟨c, _, rfl, hc⟩

/-- Whether a text is at its end or goes on with a word. -/
def startsWord : List Char → Bool
  | [] => true
  | c :: _ => isInner c

theorem plainGaps_stop {indent : Int} {fuel : Nat} {c : Cursor} {p : Pending}
    (h : startsWord c.rest = true) : plainGaps indent fuel c p = some (c, p) := by
  cases fuel with
  | zero => rfl
  | succ fuel =>
    cases hrest : c.rest with
    | nil => simp [plainGaps, hrest]
    | cons x rest =>
      rw [hrest] at h
      simp only [startsWord, isInner, Bool.and_eq_true, Bool.not_eq_true'] at h
      simp [plainGaps, hrest, h]

/-- Reading the spaces between two words. -/
theorem plainGaps_spaces {gap : Nat} {after : List Char} (hafter : startsWord after = true)
    {indent : Int} {fuel : Nat} {c : Cursor} {text gaps : List Char}
    (hrest : c.rest = List.replicate gap ' ' ++ after) (hfuel : gap ≤ fuel) :
    plainGaps indent fuel c ⟨text, gaps, [], [], false⟩
      = some (c.move gap, ⟨text, List.replicate gap ' ' ++ gaps, [], [], false⟩) := by
  induction gap generalizing fuel c gaps with
  | zero => exact plainGaps_stop (by rw [hrest]; exact hafter)
  | succ gap ih =>
    obtain ⟨fuel, rfl⟩ : ∃ n, fuel = n + 1 := ⟨fuel - 1, by omega⟩
    have hstep : plainGaps indent (fuel + 1) c ⟨text, gaps, [], [], false⟩
        = plainGaps indent fuel (c.move 1) ⟨text, ' ' :: gaps, [], [], false⟩ := by
      simp [plainGaps, hrest, List.replicate_succ, isGap, Pending.gap]
    rw [hstep, ih (by simp [hrest, List.replicate_succ]) (by omega), Cursor.move_move, Nat.add_comm,
      List.append_cons, ← List.replicate_succ']

/-- What follows a value: nothing, or the end of its line and the next line, which begins with a
word. -/
inductive Ends : List Char → List Char → Prop where
  | text : Ends [] []
  | line {below : List Char} (h : startsWord below = true) : Ends ('\n' :: below) below

/-- One round: a word, and what stands behind it. -/
theorem plainWords_word {word after : List Char} (h : IsWord word) (hstop : stopsWord after = true)
    {indent : Int} {fuel : Nat} {c : Cursor} {p : Pending} (hmarker : c.atMarker = false)
    (hrest : c.rest = word ++ after) :
    plainWords false indent (fuel + 1) c p =
      let d := c.move word.length
      let q := settled (word.reverse ++ p.settle.text)
      if endsWord after && !after.isEmpty then
        (plainGaps indent after.length d q).bind fun (d, q) =>
          if (d.column : Int) < indent then some (d, q) else plainWords false indent fuel d q
      else some (d, q) := by
  obtain ⟨x, rest, rfl, -, hsign⟩ := h.exists_cons
  have hstart : (c.atMarker || c.atChar '#') = false := by
    simp [hmarker, Cursor.atChar, hrest, hsign]
  have hword := @plainWord_append _ _ (List.cons_ne_nil x rest) h.inner h.last hstop
    c.rest.length c p hrest (by simp [hrest])
  have hmoved := Cursor.rest_move_of_append hrest
  have hgap : ((c.move (x :: rest).length).atGap || (c.move (x :: rest).length).atBreak)
      = (endsWord after && !after.isEmpty) := by
    cases after <;> simp [Cursor.atGap, Cursor.atBreak, hrest, endsWord]
  rw [plainWords, if_neg (by simp [hstart]), hword]
  simp only [Option.bind_eq_bind, Option.bind_some, hgap, hmoved]
  simp

/-- Reading the end of the line behind a word. -/
theorem plainGaps_feed {below : List Char} (hbelow : startsWord below = true) {indent : Int}
    {fuel : Nat} {c : Cursor} {text : List Char} (hrest : c.rest = '\n' :: below) :
    plainGaps indent (fuel + 1) c (settled text)
      = some (⟨below, c.index + 1, c.line + 1, 0⟩, ⟨text, [], ['\n'], [], true⟩) := by
  have hbreak := Cursor.breakLine_cons hrest (by decide) (by decide)
  rw [plainGaps, hrest]
  simp only [hbreak]
  exact plainGaps_stop hbelow

/-- Reading the rest of a row of words and the end of its line. -/
theorem plainWords_append {text after below : List Char} (h : Words text) (hends : Ends after below)
    {fuel : Nat} {c : Cursor} {p : Pending} (hcolumn : 0 < c.column) (hrest : c.rest = text ++ after)
    (hfuel : text.length < fuel) :
    ∃ d q, plainWords false 1 fuel c p = some (d, q) ∧ q.text = text.reverse ++ p.settle.text ∧
      d.rest = below ∧ (below ≠ [] → d.column = 0 ∧ q.broken = true) := by
  induction h generalizing fuel c p with
  | @last word h =>
    obtain ⟨fuel, rfl⟩ : ∃ n, fuel = n + 1 := ⟨fuel - 1, by omega⟩
    have hmoved := Cursor.rest_move_of_append hrest
    have hstop : stopsWord after = true := by cases hends <;> rfl
    rw [plainWords_word h hstop (Cursor.atMarker_of_column_pos hcolumn) hrest]
    cases hends with
    | text => exact ⟨_, _, rfl, rfl, hmoved, by simp⟩
    | line hbelow =>
      have hgaps := @plainGaps_feed _ hbelow 1 below.length _ (word.reverse ++ p.settle.text) hmoved
      refine ⟨⟨below, (c.move word.length).index + 1, (c.move word.length).line + 1, 0⟩,
        ⟨word.reverse ++ p.settle.text, [], ['\n'], [], true⟩, ?_, rfl, rfl, fun _ => ⟨rfl, rfl⟩⟩
      simp only [List.length_cons, hgaps]
      rfl
  | @more word rest gap h hwords ih =>
    obtain ⟨fuel, rfl⟩ : ∃ n, fuel = n + 1 := ⟨fuel - 1, by omega⟩
    have hword : c.rest = word ++ (List.replicate (gap + 1) ' ' ++ (rest ++ after)) := by
      simp [hrest]
    have hmoved := Cursor.rest_move_of_append hword
    have hstop : stopsWord (List.replicate (gap + 1) ' ' ++ (rest ++ after)) = true := rfl
    have hnext : startsWord (rest ++ after) = true := by
      obtain ⟨x, rest, rfl, hx, -⟩ := hwords.exists_cons
      exact hx
    have hgaps : plainGaps 1 (List.replicate (gap + 1) ' ' ++ (rest ++ after)).length
        (c.move word.length) (settled (word.reverse ++ p.settle.text)) = _ :=
      plainGaps_spaces hnext hmoved (by simp)
    obtain ⟨d, q, hread, htext, hbelow⟩ := @ih fuel ((c.move word.length).move (gap + 1))
      ⟨word.reverse ++ p.settle.text, List.replicate (gap + 1) ' ' ++ [], [], [], false⟩
      (by rw [Cursor.column_move]; omega) (by simp [hrest]) (by simp at hfuel; omega)
    refine ⟨d, q, ?_, ?_, hbelow⟩
    · have hinside : ¬ ((((c.move word.length).move (gap + 1)).column : Int) < 1) := by
        simp only [Cursor.column_move]
        omega
      rw [plainWords_word h hstop (Cursor.atMarker_of_column_pos hcolumn) hword]
      have hgap : (endsWord (List.replicate (gap + 1) ' ' ++ (rest ++ after)) &&
          !(List.replicate (gap + 1) ' ' ++ (rest ++ after)).isEmpty) = true := rfl
      dsimp only
      rw [if_pos hgap, hgaps, Option.bind_some, if_neg hinside]
      exact hread
    · rw [htext, settle_gaps]
      simp

/-- A plain text is read as it was written, with the end of its line. -/
theorem plainScalar_append {text after below : List Char} (h : Words text) (hends : Ends after below)
    {c : Cursor} (hcolumn : 0 < c.column) (hrest : c.rest = text ++ after) :
    ∃ d broken, plainScalar false 1 c = some (String.ofList text, d, broken) ∧ d.rest = below ∧
      (below ≠ [] → d.column = 0 ∧ broken = true) := by
  obtain ⟨d, q, hread, htext, hbelow⟩ := @plainWords_append _ _ _ h hends (c.rest.length + 1) c .empty
    hcolumn hrest (by rw [hrest, List.length_append]; omega)
  refine ⟨d, q.broken, ?_, hbelow⟩
  have hresult : q.result = String.ofList text := by
    simp [Pending.result, htext, Pending.empty, Pending.settle]
  simp [plainScalar, hread, hresult]

/-- A word that is a key is read up to its colon. -/
theorem plainScalar_key {word after : List Char} (h : IsWord word) (hafter : endsWord after = true)
    {indent : Int} {c : Cursor} (hmarker : c.atMarker = false) (hrest : c.rest = word ++ ':' :: after) :
    plainScalar false indent c = some (String.ofList word, c.move word.length, false) := by
  have hstop : stopsWord (':' :: after) = true := by simp [stopsWord, hafter]
  have hcolon : endsWord (':' :: after) = false := rfl
  rw [plainScalar, plainWords_word h hstop hmarker hrest]
  simp [hcolon, Pending.result, Pending.empty, Pending.settle, settled]

/-! ## The words of a text -/

theorem innerIndicators_tail {a : Char} {rest : List Char} (h : innerIndicators (a :: rest) = false) :
    innerIndicators rest = false := by
  cases rest with
  | nil => rfl
  | cons b rest => exact (Bool.or_eq_false_iff.1 h).2

theorem innerIndicators_suffix {front rest : List Char} (h : innerIndicators (front ++ rest) = false) :
    innerIndicators rest = false := by
  induction front with
  | nil => exact h
  | cons a front ih => exact ih (innerIndicators_tail h)

/-- Behind a character a colon goes on with a word, and no number sign stands behind a gap. -/
theorem of_innerIndicators {a b : Char} {rest : List Char}
    (h : innerIndicators (a :: b :: rest) = false) :
    (b = ':' → endsWord rest = false) ∧ (b = '#' → isGap a = false) := by
  simp only [innerIndicators, Bool.or_eq_false_iff] at h
  refine ⟨?_, ?_⟩
  · rintro rfl
    simpa using h.1.1
  · rintro rfl
    simpa using (Bool.or_eq_false_iff.1 (by simpa using h.1.2)).1

/-- A row of words may begin here. -/
structure Row (text : List Char) : Prop where
  inner : ∀ c ∈ text, c = ' ' ∨ isInner c = true
  first : text.head?.any (fun c => c != ' ' && c != '#') = true
  last : text.getLast? ≠ some ' '
  indicators : innerIndicators text = false
  colon : ∀ rest, text = ':' :: rest → endsWord rest = false

theorem Row.colon_inside {text front rest : List Char} (h : Row text)
    (htext : text = front ++ ':' :: rest) : endsWord rest = false := by
  subst htext
  obtain rfl | ⟨front, a, rfl⟩ := List.eq_nil_or_concat front
  · exact h.colon rest rfl
  · have hinside := h.indicators
    rw [List.concat_eq_append, List.append_assoc] at hinside
    exact (of_innerIndicators (innerIndicators_suffix hinside)).1 rfl

/-- The rest of a row behind a space is a row. -/
theorem Row.rest {front rest : List Char} (h : Row (front ++ ' ' :: rest))
    (hfirst : rest.head?.any (· != ' ') = true) : Row rest := by
  obtain ⟨c, rest, rfl⟩ : ∃ c r, rest = c :: r := by
    cases rest with
    | nil => simp at hfirst
    | cons c rest => exact ⟨c, rest, rfl⟩
  have hindicators := innerIndicators_suffix h.indicators
  have hsign : c ≠ '#' := fun hc => by
    have hgap := (of_innerIndicators hindicators).2 hc
    revert hgap
    decide
  refine ⟨fun d hd => h.inner d ?_, ?_, ?_, innerIndicators_tail hindicators, ?_⟩
  · exact List.mem_append_right _ (List.mem_cons_of_mem _ hd)
  · simpa [hsign] using hfirst
  · have hlast := h.last
    rw [List.getLast?_append] at hlast
    simpa [List.getLast?_cons_cons] using hlast
  · rintro more hmore
    cases hmore
    exact (of_innerIndicators hindicators).1 rfl

/-- A text falls into a run of characters of one class and the rest. -/
theorem exists_run (p : Char → Bool) (text : List Char) :
    ∃ run rest, text = run ++ rest ∧ (∀ c ∈ run, p c = true) ∧
      rest.head?.all (fun c => !p c) = true := by
  induction text with
  | nil => exact ⟨[], [], rfl, by simp, rfl⟩
  | cons c text ih =>
    by_cases hc : p c = true
    · obtain ⟨run, rest, rfl, hrun, hrest⟩ := ih
      exact ⟨c :: run, rest, rfl, List.forall_mem_cons.2 ⟨hc, hrun⟩, hrest⟩
    · exact ⟨[], c :: text, rfl, by simp, by simpa using hc⟩

theorem exists_spaces (text : List Char) :
    ∃ gap rest, text = List.replicate gap ' ' ++ rest ∧ rest.head? ≠ some ' ' := by
  obtain ⟨run, rest, rfl, hrun, hrest⟩ := exists_run (· == ' ') text
  refine ⟨run.length, rest, ?_, ?_⟩
  · rw [← List.eq_replicate_of_mem (a := ' ') fun c hc => by simpa using hrun c hc]
  · cases rest with
    | nil => simp
    | cons c rest => simpa using hrest

/-- A space may be moved over other spaces. -/
theorem cons_spaces (gap : Nat) (rest : List Char) :
    ' ' :: (List.replicate gap ' ' ++ rest) = List.replicate gap ' ' ++ ' ' :: rest := by
  rw [List.append_cons, ← List.replicate_succ', List.replicate_succ, List.cons_append]

/-- A text falls into the part before its first space and the rest. -/
theorem exists_word (text : List Char) :
    ∃ word rest, text = word ++ rest ∧ (∀ c ∈ word, c ≠ ' ') ∧ (rest = [] ∨ ∃ r, rest = ' ' :: r) := by
  obtain ⟨word, rest, rfl, hword, hrest⟩ := exists_run (· != ' ') text
  refine ⟨word, rest, rfl, fun c hc => by simpa using hword c hc, ?_⟩
  cases rest with
  | nil => exact .inl rfl
  | cons c rest =>
    obtain rfl : c = ' ' := by simpa using hrest
    exact .inr ⟨rest, rfl⟩

/-- The part of a row before a space or its end is a word. -/
theorem Row.isWord {word rest : List Char} (h : Row (word ++ rest)) (hword : ∀ c ∈ word, c ≠ ' ')
    (hrest : endsWord rest = true) : IsWord word := by
  refine ⟨fun c hc => (h.inner c (List.mem_append_left _ hc)).resolve_left (hword c hc), ?_, ?_⟩
  · have hfirst := h.first
    cases word with
    | nil =>
      cases rest with
      | nil => cases hfirst
      | cons c rest =>
        have hspace : c ≠ ' ' := by
          simp only [List.nil_append, List.head?_cons, Option.any_some, Bool.and_eq_true, bne_iff_ne]
            at hfirst
          exact hfirst.1
        have hc := (h.inner c List.mem_cons_self).resolve_left hspace
        simp [endsWord, isInner] at hrest hc
        simp [hc] at hrest
    | cons c word => exact (Bool.and_eq_true_iff.1 hfirst).2
  · intro hlast
    obtain ⟨front, hfront⟩ := List.getLast?_eq_some_iff.1 hlast
    have hcolon := @Row.colon_inside _ front rest h (by simp [hfront])
    rw [hrest] at hcolon
    cases hcolon

theorem Row.words {text : List Char} (h : Row text) : Words text := by
  obtain ⟨word, rest, htext, hword, hrest⟩ := exists_word text
  obtain rfl | ⟨rest, rfl⟩ := hrest
  · rw [htext] at h ⊢
    have hlast := h.isWord hword rfl
    rw [List.append_nil]
    exact .last hlast
  · obtain ⟨gap, rest, rfl, hhead⟩ := exists_spaces rest
    have hlength : rest.length < text.length := by
      rw [htext]
      simp only [List.length_append, List.length_cons]
      omega
    have hfirst : IsWord word := by
      rw [htext] at h
      exact h.isWord hword rfl
    rw [cons_spaces, ← List.append_assoc] at htext
    have hrow : Row rest := by
      rw [htext] at h
      refine h.rest ?_
      cases rest with
      | nil => exact absurd (by simp) h.last
      | cons c rest => simpa using hhead
    have hwords := Words.more gap hfirst hrow.words
    rwa [htext, List.append_assoc, ← cons_spaces, ← List.cons_append, ← List.replicate_succ,
      ← List.append_assoc]
termination_by text.length

/-- A text that may stand without quotes is a row of words. -/
theorem words_of_admitsPlain {text : List Char} (hne : text ≠ [])
    (h : (shape text).admitsPlain = true) : Words text := by
  obtain ⟨c, rest, rfl⟩ := List.exists_cons_of_ne_nil hne
  simp only [Shape.admitsPlain, shape, Bool.not_eq_true', Bool.or_eq_false_iff, leadsIndicator] at h
  obtain ⟨⟨⟨⟨⟨⟨⟨⟨⟨-, hinner⟩, hleads⟩, hbreaks⟩, hprintable⟩, hgap⟩, hspace⟩, -⟩, -⟩, -⟩ := h
  refine Row.words ⟨fun d hd => ?_, ?_, ?_, hinner, ?_⟩
  · have hbreak : isBreak d = false := by simpa using List.any_eq_false.1 hbreaks d hd
    have hprint : isPrintable d = true := by simpa using List.any_eq_false.1 hprintable d hd
    have htab : d ≠ '\t' := by
      rintro rfl
      revert hprint
      decide
    by_cases hspace : d = ' '
    · exact .inl hspace
    · exact .inr (by simp [isInner, isGap, hspace, htab, hbreak])
  · have hsign : c ≠ '#' := by
      rintro rfl
      exact absurd hleads.1 (by decide)
    have hblank : c ≠ ' ' := by simpa using hgap.1
    simp [hsign, hblank]
  · intro hlast
    rw [hlast] at hspace
    cases hspace
  · rintro more hmore
    cases hmore
    simpa using hleads.2

end AgentDocs.Yaml
