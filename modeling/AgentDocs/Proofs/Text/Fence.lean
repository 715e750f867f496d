import AgentDocs.Proofs.Loop
import AgentDocs.Proofs.Text.Fields
import AgentDocs.Proofs.Text.Trim
import AgentDocs.Text.Fence
import Mathlib.Order.Bounds.Defs

/-! # Fences

A block of code ends at the first line that is a fence as long as the one it began with. Where the
fence is longer than every run of backticks in the code, no line of the code is one. A fence that
grows for as long as the code contains it comes to the shortest of these. -/
namespace AgentDocs.Text

/-! ## Runs -/

theorem infix_append_cons_iff {d : Char} {part : List Char} (h : d ∉ part)
    {front rest : List Char} :
    part <:+: front ++ d :: rest ↔ part <:+: front ∨ part <:+: rest := by
  constructor
  · rintro ⟨before, behind, heq⟩
    obtain ⟨between, hfront, -⟩ | ⟨tail, hpart, hrest⟩ := List.append_eq_append_iff.1 heq
    · exact .inl ⟨before, between, hfront.symm⟩
    · cases tail with
      | nil => exact .inl ⟨before, [], by simpa using hpart⟩
      | cons c tail =>
        obtain ⟨rfl, rfl⟩ := List.cons.inj hrest
        obtain ⟨within, -, hpart⟩ | ⟨between, -, htail⟩ := List.append_eq_append_iff.1 hpart
        · exact absurd (by rw [hpart]; simp) h
        · cases between with
          | nil => exact absurd (by rw [← List.nil_append part, ← htail]; exact List.mem_cons_self) h
          | cons c between =>
            obtain ⟨rfl, rfl⟩ := List.cons.inj htail
            exact .inr ⟨between, behind, rfl⟩
  · rintro (h | h)
    · exact h.trans (List.prefix_append ..).isInfix
    · exact h.trans (List.suffix_append_of_suffix (List.suffix_cons ..)).isInfix

variable {c : Char} {n : Nat}

theorem replicate_infix_replicate_iff {m : Nat} :
    List.replicate n c <:+: List.replicate m c ↔ n ≤ m := by
  constructor
  · intro h
    simpa using h.length_le
  · intro h
    refine ⟨[], List.replicate (m - n) c, ?_⟩
    rw [List.nil_append, List.replicate_append_replicate, Nat.add_sub_cancel' h]

/-- The characters before the text count for a run at its beginning. -/
theorem replicate_infix_iff_from {run : Nat} {cs : List Char} :
    List.replicate n c <:+: List.replicate run c ++ cs ↔ n ≤ longestRunFrom c run cs := by
  induction cs generalizing run with
  | nil => rw [List.append_nil, replicate_infix_replicate_iff, longestRunFrom]
  | cons d cs ih =>
    rw [longestRunFrom]
    split
    · rename_i hd
      rw [← ih, hd, List.replicate_succ', List.append_assoc, List.singleton_append]
    · rename_i hd
      have hmax : n ≤ max run (longestRunFrom c 0 cs) ↔ n ≤ run ∨ n ≤ longestRunFrom c 0 cs := by
        omega
      rw [hmax, ← ih, List.replicate_zero, List.nil_append,
        ← replicate_infix_replicate_iff (c := c)]
      by_cases hn : n = 0
      · rw [hn]
        simp [List.nil_infix]
      · exact infix_append_cons_iff fun hmem => hd (List.eq_of_mem_replicate hmem)

/-- A run occurs in a text if it is no longer than the longest one. -/
theorem replicate_infix_iff {cs : List Char} :
    List.replicate n c <:+: cs ↔ n ≤ longestRun c cs :=
  @replicate_infix_iff_from c n 0 cs

/-! ## Lines that end a block -/

/-- Whether a line ends a block that begins with so many backticks: it is no fewer backticks, blanks
around them aside. -/
def endsFence (ticks : Nat) (line : List Char) : Bool :=
  decide (ticks ≤ (trim line).length) && (trim line).all (· == '\x60')

/-- The lines that a text shows as a block of code: below its first line, up to the one that ends the
block. -/
def shownLines (text : List Char) : List (List Char) :=
  (split '\n' text).tail.takeWhile fun line =>
    !endsFence (text.takeWhile (· == '\x60')).length line

theorem infix_of_split {sep : Char} {cs first : List Char} {rest : List (List Char)}
    (h : split sep cs = first :: rest) : first <+: cs ∧ ∀ field ∈ rest, field <:+: cs := by
  induction cs generalizing first rest with
  | nil =>
    cases h
    exact ⟨List.nil_prefix, List.forall_mem_nil _⟩
  | cons c cs ih =>
    obtain ⟨next, more, hcs⟩ := List.exists_cons_of_ne_nil (split_ne_nil sep cs)
    obtain ⟨hnext, hmore⟩ := ih hcs
    have hmore : ∀ field ∈ more, field <:+: c :: cs := fun field hfield =>
      (hmore field hfield).trans (List.suffix_cons c cs).isInfix
    rw [split, hcs] at h
    split at h
    · cases h
      exact ⟨List.nil_prefix, List.forall_mem_cons.2
        ⟨hnext.isInfix.trans (List.suffix_cons c cs).isInfix, hmore⟩⟩
    · cases h
      exact ⟨List.cons_prefix_cons.2 ⟨rfl, hnext⟩, hmore⟩

theorem infix_of_mem_split {sep : Char} {cs field : List Char} (h : field ∈ split sep cs) :
    field <:+: cs := by
  obtain ⟨first, rest, hcs⟩ := List.exists_cons_of_ne_nil (split_ne_nil sep cs)
  obtain ⟨hfirst, hrest⟩ := infix_of_split hcs
  rw [hcs] at h
  exact (List.mem_cons.1 h).elim (fun h => h ▸ hfirst.isInfix) (hrest field)

theorem infix_of_mem_lines {code line : List Char} (h : line ∈ split '\n' (trim code)) :
    line <:+: code :=
  (infix_of_mem_split h).trans (isInfix_trim _)

/-- A line that ends a block holds its run of backticks. -/
theorem le_longestRun_of_endsFence {ticks : Nat} {line : List Char}
    (h : endsFence ticks line = true) : ticks ≤ longestRun '\x60' line := by
  rw [endsFence, Bool.and_eq_true, decide_eq_true_eq, List.all_eq_true] at h
  obtain ⟨hticks, hall⟩ := h
  have hrun : trim line = List.replicate (trim line).length '\x60' :=
    List.eq_replicate_of_mem fun c hc => by simpa using hall c hc
  have hinfix := isInfix_trim line
  rw [hrun] at hinfix
  exact hticks.trans (replicate_infix_iff.1 hinfix)

theorem length_fence (code : List Char) :
    (fence code).length = max 3 (longestRun '\x60' code + 1) := List.length_replicate

/-- The fence is longer than every run of backticks in the code. -/
theorem lt_length_fence {code : List Char} (h : List.replicate n '\x60' <:+: code) :
    n < (fence code).length := by
  have hrun := replicate_infix_iff.1 h
  rw [length_fence]
  omega

/-- The fence is the shortest run of three backticks or more that the code does not have. -/
theorem isLeast_length_fence (code : List Char) :
    IsLeast {n | 3 ≤ n ∧ ¬List.replicate n '\x60' <:+: code} (fence code).length := by
  constructor
  · refine ⟨?_, fun hrun => Nat.lt_irrefl _ (lt_length_fence hrun)⟩
    rw [length_fence]
    exact Nat.le_max_left _ _
  · rintro n ⟨hthree, hrun⟩
    rw [replicate_infix_iff] at hrun
    rw [length_fence]
    omega

theorem endsFence_fence {code line : List Char} (h : line <:+: code) :
    endsFence (fence code).length line = false := by
  refine Bool.eq_false_iff.2 fun hends => ?_
  have hrun := replicate_infix_iff.2 (le_longestRun_of_endsFence hends)
  exact absurd (lt_length_fence (hrun.trans h)) (Nat.lt_irrefl _)

/-! ## Blocks -/

/-- A block of code that begins and ends with so many backticks. -/
def block (ticks : Nat) (language code : List Char) : List Char :=
  List.replicate ticks '\x60' ++ language ++ '\n' :: (trim code ++ '\n' :: List.replicate ticks '\x60')

theorem toList_fenced (language code : String) :
    (fenced language code).toList
      = block (fence code.toList).length language.toList code.toList := by
  simp [fenced, block, trimmed, onChars, fence]

theorem endsFence_replicate (ticks : Nat) : endsFence ticks (List.replicate ticks '\x60') = true := by
  have hblank : ∀ c ∈ List.replicate ticks '\x60', isBlank c = false := fun c hc => by
    rw [List.eq_of_mem_replicate hc]
    rfl
  have hleft : trimLeft (List.replicate ticks '\x60') = List.replicate ticks '\x60' := by
    cases ticks <;> rfl
  have htrim : trim (List.replicate ticks '\x60') = List.replicate ticks '\x60' := by
    rw [trim, hleft]
    exact dropTailWhile_of_getLast? fun c hc => hblank c (List.mem_of_getLast? hc)
  simp [endsFence, htrim]

/-- Where a block begins there are so many backticks, and no more. -/
theorem takeWhile_block {language : List Char} (htick : '\x60' ∉ language) (ticks : Nat)
    (code : List Char) :
    (block ticks language code).takeWhile (· == '\x60') = List.replicate ticks '\x60' := by
  rw [block, List.append_assoc, List.takeWhile_append_of_pos (by simp [List.mem_replicate])]
  cases language with
  | nil => simp
  | cons c language =>
    have hc : c ≠ '\x60' := fun hc => htick (hc ▸ List.mem_cons_self)
    simp [hc]

/-- Where a block ends there are as many. -/
theorem takeWhile_reverse_block (ticks : Nat) (language code : List Char) :
    (block ticks language code).reverse.takeWhile (· == '\x60') = List.replicate ticks '\x60' := by
  have hreverse : (block ticks language code).reverse = List.replicate ticks '\x60'
      ++ '\n' :: (List.replicate ticks '\x60' ++ language ++ '\n' :: trim code).reverse := by
    simp [block]
  rw [hreverse, List.takeWhile_append_of_pos (by simp [List.mem_replicate])]
  simp

theorem split_block {language : List Char} (hline : '\n' ∉ language) (ticks : Nat)
    (code : List Char) : split '\n' (block ticks language code)
      = (List.replicate ticks '\x60' ++ language)
        :: (split '\n' (trim code) ++ [List.replicate ticks '\x60']) := by
  have hopening : '\n' ∉ List.replicate ticks '\x60' ++ language := by
    simpa [List.mem_replicate] using hline
  have hclosing : '\n' ∉ List.replicate ticks '\x60' := by simp [List.mem_replicate]
  rw [block, split_append_cons, split_of_notMem hopening, split_append_cons,
    split_of_notMem hclosing, List.singleton_append]

/-- A block shows the lines of the code up to the first that ends it. -/
theorem shownLines_block {language : List Char} (hline : '\n' ∉ language)
    (htick : '\x60' ∉ language) (ticks : Nat) (code : List Char) :
    shownLines (block ticks language code)
      = (split '\n' (trim code)).takeWhile fun line => !endsFence ticks line := by
  rw [shownLines, takeWhile_block htick, List.length_replicate, split_block hline, List.tail_cons,
    List.takeWhile_append]
  split
  · rename_i hall
    -- no line of the code ends the block, but the last line of the block does
    rw [List.IsPrefix.eq_of_length (List.takeWhile_prefix _) hall, List.takeWhile_cons]
    simp [endsFence_replicate]
  · rfl

/-! ## How a fence grows -/

/-- Three backticks get one more for as long as the code contains all of them in a row. -/
def GrowsTo (code ticks : String) : Prop :=
  LoopEnds (contains code ·) (·.push '\x60') "\x60\x60\x60" ticks

/-- The code between fences that have grown. -/
def GrownBlock (language code text : String) : Prop :=
  ∃ ticks, GrowsTo code ticks ∧
    text = ticks ++ language ++ "\n" ++ trimmed code ++ "\n" ++ ticks

/-- The fence after so many turns. -/
def ticksAfter (turns : Nat) : String := String.ofList (List.replicate (3 + turns) '\x60')

theorem ticksAfter_succ (turns : Nat) :
    ticksAfter (turns + 1) = (ticksAfter turns).push '\x60' := by
  rw [ticksAfter, ticksAfter, ← Nat.add_assoc, List.replicate_succ', ← String.toList_inj]
  simp

theorem contains_ticksAfter_iff {code : String} {turns : Nat} :
    contains code (ticksAfter turns) = true ↔ 3 + turns ≤ longestRun '\x60' code.toList := by
  rw [contains, ticksAfter, String.toList_ofList, occursIn_iff, replicate_infix_iff]

/-- A fence stops growing once it is longer than every run in the code. -/
theorem growsTo_iff {code ticks : String} :
    GrowsTo code ticks ↔ ticks = String.ofList (fence code.toList) := by
  have hloop : LoopEnds (contains code ·) (·.push '\x60') (ticksAfter 0) ticks
      ↔ ticks = ticksAfter (longestRun '\x60' code.toList - 2) := by
    refine LoopEnds.iff_eq ticksAfter ticksAfter_succ (fun turns hturns => ?_) (Bool.eq_false_iff.2 ?_)
    · exact contains_ticksAfter_iff.2 (by omega)
    · exact mt contains_ticksAfter_iff.1 (by omega)
  have hlength : 3 + (longestRun '\x60' code.toList - 2)
      = max 3 (longestRun '\x60' code.toList + 1) := by
    omega
  rw [fence, ← hlength]
  exact hloop

theorem grownBlock_iff {language code text : String} :
    GrownBlock language code text ↔ text = fenced language code := by
  simp only [GrownBlock, growsTo_iff, exists_eq_left]
  rfl

/-- A fence grows until it is the shortest run of three backticks or more that the code does not
have. The block begins and ends with it, and no line between its first and its last has such a run
or ends it. -/
theorem fenced_between_shortest (language code : String) (hline : '\n' ∉ language.toList)
    (htick : '\x60' ∉ language.toList) :
    (∀ text, GrownBlock language code text ↔ text = fenced language code) ∧
      let n := (fence code.toList).length
      let ticks := List.replicate n '\x60'
      let text := (fenced language code).toList
      let lines := split '\n' (trim code.toList)
      IsLeast {k | 3 ≤ k ∧ ¬List.replicate k '\x60' <:+: code.toList} n ∧
      text.takeWhile (· == '\x60') = ticks ∧
      text.reverse.takeWhile (· == '\x60') = ticks ∧
      split '\n' text = (ticks ++ language.toList) :: (lines ++ [ticks]) ∧
      (∀ line ∈ lines, ¬ticks <:+: line ∧ endsFence n line = false) ∧
      endsFence n ticks = true := by
  refine ⟨fun text => grownBlock_iff, ?_⟩
  intro n ticks text lines
  have htext : text = block n language.toList code.toList := toList_fenced language code
  have hleast := isLeast_length_fence code.toList
  rw [htext]
  refine ⟨hleast, takeWhile_block htick _ _, takeWhile_reverse_block _ _ _, split_block hline _ _,
    fun line hmem => ?_, endsFence_replicate n⟩
  have hinfix : line <:+: code.toList := infix_of_mem_lines hmem
  exact ⟨fun hrun => hleast.1.2 (hrun.trans hinfix), endsFence_fence hinfix⟩

/-- Code that is a run, a longer run and a run, with blanks around them. -/
def runsInCode : String := " \x60\x60\x60\n\n\x60\x60\x60\x60 \x60\x60\x60\n"

/-- The runs that trimming brings to the ends of the code are no fences. -/
theorem runsInCode_between_five :
    GrownBlock "rust" runsInCode ("\x60\x60\x60\x60\x60rust\n"
        ++ "\x60\x60\x60\n\n\x60\x60\x60\x60 \x60\x60\x60" ++ "\n\x60\x60\x60\x60\x60") ∧
      IsLeast {k | 3 ≤ k ∧ ¬List.replicate k '\x60' <:+: runsInCode.toList} 5 ∧
      ∀ line ∈ split '\n' (trim runsInCode.toList), endsFence 5 line = false := by
  have hlength : (fence runsInCode.toList).length = 5 := by decide +kernel
  obtain ⟨hgrown, hleast, -, -, -, hlines, -⟩ :=
    fenced_between_shortest "rust" runsInCode (by decide) (by decide)
  rw [hlength] at hleast hlines
  exact ⟨(hgrown _).2 (by decide +kernel), hleast, fun line hmem => (hlines line hmem).2⟩

end AgentDocs.Text
