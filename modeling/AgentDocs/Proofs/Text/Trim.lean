import AgentDocs.Text.Blank
import Mathlib.Data.List.DropRight
import Mathlib.Data.List.TakeWhile

/-! # Trimming

What is dropped at an end of a text is a run of characters of one class, up to the first that is
not of the class. -/
namespace AgentDocs.Text
variable {p : Char → Bool}

theorem dropTailWhile_concat_of_pos {c : Char} (h : p c = true) (cs : List Char) :
    dropTailWhile p (cs ++ [c]) = dropTailWhile p cs := by
  simp [dropTailWhile, h]

/-- Nothing is dropped in front of a character that is not of the class. -/
theorem dropTailWhile_append_cons {c : Char} (h : p c = false) (front cs : List Char) :
    dropTailWhile p (front ++ c :: cs) = front ++ c :: dropTailWhile p cs := by
  have hreverse : (front ++ c :: cs).reverse = cs.reverse ++ (c :: front.reverse) := by simp
  rw [dropTailWhile, dropTailWhile, hreverse, List.dropWhile_append]
  by_cases hcs : (cs.reverse.dropWhile p).isEmpty = true
  · rw [if_pos hcs, List.isEmpty_iff.1 hcs]
    simp [h]
  · rw [if_neg hcs]
    simp

/-- Nothing is dropped where the last character is not of the class. -/
theorem dropTailWhile_of_getLast? {cs : List Char} (h : ∀ c ∈ cs.getLast?, p c = false) :
    dropTailWhile p cs = cs := by
  obtain rfl | ⟨front, c, rfl⟩ := List.eq_nil_or_concat cs
  · rfl
  · have hc := h c (by simp)
    simp [dropTailWhile, hc]

theorem isPrefix_dropTailWhile (p : Char → Bool) (cs : List Char) : dropTailWhile p cs <+: cs := by
  have hsuffix := List.reverse_prefix.2 (List.dropWhile_suffix p (l := cs.reverse))
  rwa [List.reverse_reverse] at hsuffix

theorem notMem_of_allBlank {c : Char} (hc : isBlank c = false) {text : List Char}
    (h : allBlank text = true) : c ∉ text := fun hmem => by
  rw [List.all_eq_true.1 h c hmem] at hc
  cases hc

theorem trimRight_eq_nil {cs : List Char} : trimRight cs = [] ↔ allBlank cs = true := by
  simp [trimRight, dropTailWhile, allBlank]

theorem trimRight_cons (c : Char) (cs : List Char) :
    trimRight (c :: cs) = if isBlank c && allBlank cs then [] else c :: trimRight cs := by
  cases hc : isBlank c with
  | false => exact dropTailWhile_append_cons hc [] cs
  | true =>
    by_cases hcs : allBlank cs = true
    · simpa [hcs] using trimRight_eq_nil.2 (by simpa [allBlank, hc] using hcs)
    · have hsome : (cs.reverse.dropWhile isBlank).isEmpty = false := by
        have hne := mt trimRight_eq_nil.1 hcs
        simpa [trimRight, dropTailWhile] using hne
      simp [hcs, trimRight, dropTailWhile, List.dropWhile_append, hsome]

/-- A blank at the end counts for nothing. -/
theorem trim_concat {c : Char} (h : isBlank c = true) (cs : List Char) :
    trim (cs ++ [c]) = trim cs := by
  rw [trim, trim, trimLeft, trimLeft, List.dropWhile_append]
  by_cases hcs : (cs.dropWhile isBlank).isEmpty = true
  · rw [if_pos hcs, List.isEmpty_iff.1 hcs]
    simp [h]
  · rw [if_neg hcs]
    exact dropTailWhile_concat_of_pos h _

theorem not_isBlank_of_isAlpha {c : Char} (h : c.isAlpha = true) : isBlank c = false := by
  refine Bool.eq_false_iff.2 fun hblank => ?_
  have hletter : (decide (65 ≤ c.val.toNat ∧ c.val.toNat ≤ 90) ||
      (decide (97 ≤ c.val.toNat) && decide (c.val.toNat ≤ 122))) = true := h
  simp only [Bool.or_eq_true, Bool.and_eq_true, decide_eq_true_eq] at hletter
  simp only [isBlank, Char.toNat, Bool.or_eq_true, Bool.and_eq_true, decide_eq_true_eq,
    beq_iff_eq] at hblank
  omega

/-! ## Both ends -/

theorem trimLeft_append_cons {c : Char} (h : isBlank c = false) (front cs : List Char) :
    trimLeft (front ++ c :: cs) = trimLeft front ++ c :: cs := by
  rw [trimLeft, trimLeft, List.dropWhile_append]
  split
  · rename_i hfront
    simp [List.isEmpty_iff.1 hfront, h]
  · rfl

/-- On both sides of a character that is no blank a text is trimmed by itself. -/
theorem trim_append_cons {c : Char} (h : isBlank c = false) (front cs : List Char) :
    trim (front ++ c :: cs) = trimLeft front ++ c :: trimRight cs := by
  rw [trim, trimLeft_append_cons h, trimRight, dropTailWhile_append_cons h]
  rfl

theorem mem_trim {c : Char} (hc : isBlank c = false) {cs : List Char} (h : c ∈ cs) : c ∈ trim cs := by
  obtain ⟨front, rest, rfl⟩ := List.append_of_mem h
  rw [trim_append_cons hc]
  simp

theorem isInfix_trim (cs : List Char) : trim cs <:+: cs :=
  (isPrefix_dropTailWhile isBlank _).isInfix.trans (List.dropWhile_suffix _).isInfix

theorem trim_trimLeft (cs : List Char) : trim (trimLeft cs) = trim cs := by
  rw [trim, trim, trimLeft, trimLeft, List.dropWhile_idempotent]

theorem trim_trimRight (cs : List Char) : trim (trimRight cs) = trim cs := by
  induction cs using List.reverseRecOn with
  | nil => rfl
  | append_singleton cs c ih =>
    cases hc : isBlank c with
    | true => rw [trimRight, dropTailWhile_concat_of_pos hc, trim_concat hc, ← trimRight, ih]
    | false =>
      rw [trimRight, dropTailWhile_append_cons hc]
      rfl

theorem trimLeft_append_of_allBlank {left : List Char} (h : allBlank left = true) (cs : List Char) :
    trimLeft (left ++ cs) = trimLeft cs :=
  List.dropWhile_append_of_pos (List.all_eq_true.1 h)

/-- A text that is trimmed begins with no blank. -/
theorem isBlank_of_head?_trim (cs : List Char) : ∀ c ∈ (trim cs).head?, isBlank c = false := by
  intro c hc
  obtain ⟨more, hmore⟩ := isPrefix_dropTailWhile isBlank (trimLeft cs)
  obtain ⟨rest, hrest⟩ := List.head?_eq_some_iff.1 hc
  have hleft : trimLeft cs = c :: (rest ++ more) := by
    rw [← hmore, ← trimRight, ← trim, hrest, List.cons_append]
  have hnot := List.head?_dropWhile_not isBlank cs
  rw [← trimLeft, hleft] at hnot
  simpa using hnot

/-- A text that is trimmed ends with no blank. -/
theorem isBlank_of_getLast?_trim (cs : List Char) :
    ∀ c ∈ (trim cs).getLast?, isBlank c = false := by
  intro c hc
  rw [trim, trimRight, dropTailWhile, List.getLast?_reverse] at hc
  have hnot := List.head?_dropWhile_not isBlank (trimLeft cs).reverse
  rw [Option.mem_def.1 hc] at hnot
  simpa using hnot

end AgentDocs.Text
