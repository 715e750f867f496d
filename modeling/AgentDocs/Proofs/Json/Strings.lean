import AgentDocs.Json.Members
import AgentDocs.Json.Writer

/-! # Strings in JSON texts

A string that was written is read again, whatever characters it has, and so is a list of strings
on lines of their own. -/
namespace AgentDocs.Json

/-! ## Blanks -/

def Blank (pad : List Char) : Prop := ∀ c ∈ pad, c = ' ' ∨ c = '\n'

theorem Blank.newline (n : Nat) : Blank ('\n' :: List.replicate n ' ') := by
  intro c hc
  rcases List.mem_cons.1 hc with rfl | hc
  · exact .inr rfl
  · exact .inl (List.eq_of_mem_replicate hc)

theorem skipBlanks_append {pad : List Char} (h : Blank pad) (cs : List Char) :
    skipBlanks (pad ++ cs) = skipBlanks cs := by
  induction pad with
  | nil => rfl
  | cons c pad ih =>
    have hc : c = ' ' ∨ c = '\n' := h c List.mem_cons_self
    have hpad := ih fun d hd => h d (List.mem_cons_of_mem _ hd)
    rcases hc with rfl | rfl <;> simpa [skipBlanks, List.dropWhile_cons] using hpad

theorem skipBlanks_skipBlanks (cs : List Char) : skipBlanks (skipBlanks cs) = skipBlanks cs := by
  unfold skipBlanks
  induction cs with
  | nil => rfl
  | cons c cs ih =>
    rw [List.dropWhile_cons]
    split
    · exact ih
    · rename_i hc
      rw [List.dropWhile_cons, if_neg hc]

theorem skipBlanks_quote (cs : List Char) : skipBlanks ('"' :: cs) = '"' :: cs := rfl

theorem skipBlanks_comma (cs : List Char) : skipBlanks (',' :: cs) = ',' :: cs := rfl

theorem value?_skipBlanks (fuel depth : Nat) (cs : List Char) :
    value? fuel depth (skipBlanks cs) = value? fuel depth cs := by
  cases fuel with
  | zero => simp [value?]
  | succ fuel => rw [value?, value?, skipBlanks_skipBlanks]

theorem items?_skipBlanks (fuel depth : Nat) (cs : List Char) :
    items? fuel depth (skipBlanks cs) = items? fuel depth cs := by
  cases fuel with
  | zero => simp [items?]
  | succ fuel => rw [items?, items?, value?_skipBlanks]

theorem membersNamed?_skipBlanks (name : String) (fuel : Nat) (cs : List Char) :
    membersNamed? name fuel (skipBlanks cs) = membersNamed? name fuel cs := by
  cases fuel with
  | zero => simp [membersNamed?]
  | succ fuel => rw [membersNamed?, membersNamed?, skipBlanks_skipBlanks]

/-! ## One string -/

theorem hexValue?_hexDigit (n : Nat) : hexValue? (hexDigit n) = some (n % 16) := by
  have h : ∀ d, d < 16 → hexValue? (Nat.digitChar d) = some d := by decide
  exact h (n % 16) (Nat.mod_lt n (by decide))

/-- What `escape?` makes of a control character without a short form. -/
theorem escape?_unit {c : Char} (h : c.toNat < 0x20) (rest : List Char) :
    escape? ('u' :: '0' :: '0' :: hexDigit (c.toNat / 16) :: hexDigit c.toNat :: rest)
      = some (c, rest) := by
  have hzero : hexValue? '0' = some 0 := rfl
  have hunit : unit? ('0' :: '0' :: hexDigit (c.toNat / 16) :: hexDigit c.toNat :: rest)
      = some (c.toNat, rest) := by
    simp only [unit?, hzero, hexValue?_hexDigit, Option.bind_eq_bind, Option.bind_some,
      Option.pure_def, Option.some.injEq, Prod.mk.injEq, and_true]
    omega
  simp only [escape?, hunit, Option.bind_eq_bind, Option.bind_some]
  rw [if_pos (.inl (by omega)), Char.ofNat_toNat]

theorem stringTail?_escape {tail rest : List Char} {c : Char} (h : escape? tail = some (c, rest))
    (fuel : Nat) :
    stringTail? (fuel + 1) ('\\' :: tail)
      = (stringTail? fuel rest).map fun (cs, rest) => (c :: cs, rest) := by
  rw [stringTail?, if_neg (by decide), if_pos rfl, h, Option.bind_eq_bind, Option.bind_some]
  dsimp only
  cases stringTail? fuel rest <;> rfl

theorem stringTail?_plain {c : Char} (hquote : c ≠ '"') (hslash : c ≠ '\\')
    (hc : ¬c.toNat < 0x20) (fuel : Nat) (rest : List Char) :
    stringTail? (fuel + 1) (c :: rest)
      = (stringTail? fuel rest).map fun (cs, rest) => (c :: cs, rest) := by
  rw [stringTail?, if_neg hquote, if_neg hslash, if_neg hc]
  cases stringTail? fuel rest <;> rfl

/-- A character is read from what is written for it. -/
theorem stringTail?_escapeChar (fuel : Nat) (c : Char) (rest : List Char) :
    stringTail? (fuel + 1) (escapeChar c ++ rest)
      = (stringTail? fuel rest).map fun (cs, rest) => (c :: cs, rest) := by
  unfold escapeChar
  split
  · subst c; exact stringTail?_escape rfl fuel
  split
  · subst c; exact stringTail?_escape rfl fuel
  split
  · subst c; exact stringTail?_escape rfl fuel
  split
  · subst c; exact stringTail?_escape rfl fuel
  split
  · subst c; exact stringTail?_escape rfl fuel
  split
  · subst c; exact stringTail?_escape rfl fuel
  split
  · subst c; exact stringTail?_escape rfl fuel
  split
  · rename_i hc
    exact stringTail?_escape (escape?_unit hc rest) fuel
  · rename_i hquote hslash _ _ _ _ _ hc
    exact stringTail?_plain hquote hslash hc fuel rest

theorem stringTail?_escaped {fuel : Nat} {cs : List Char} (h : cs.length < fuel)
    (rest : List Char) :
    stringTail? fuel (cs.flatMap escapeChar ++ '"' :: rest) = some (cs, rest) := by
  induction cs generalizing fuel with
  | nil =>
    obtain ⟨fuel, rfl⟩ := Nat.exists_eq_add_one_of_ne_zero (Nat.ne_of_gt h)
    rfl
  | cons c cs ih =>
    obtain ⟨fuel, rfl⟩ := Nat.exists_eq_add_one_of_ne_zero (Nat.ne_of_gt (Nat.zero_lt_of_lt h))
    rw [List.flatMap_cons, List.append_assoc, stringTail?_escapeChar,
      ih (Nat.lt_of_succ_lt_succ h)]
    rfl

theorem escapeChar_ne_nil (c : Char) : escapeChar c ≠ [] := by
  unfold escapeChar
  repeat' split
  all_goals exact List.cons_ne_nil _ _

theorem length_le_escaped (cs : List Char) : cs.length ≤ (cs.flatMap escapeChar).length := by
  induction cs with
  | nil => exact Nat.le_refl _
  | cons c cs ih =>
    have hc := List.length_pos_iff.2 (escapeChar_ne_nil c)
    simp only [List.flatMap_cons, List.length_append, List.length_cons]
    omega

/-- The opening quote of a written string is followed by the string. -/
theorem string?_quoteChars (s : String) (rest : List Char) :
    string? ((quoteChars s.toList).tail ++ rest) = some (s, rest) := by
  have hlen := length_le_escaped s.toList
  simp only [quoteChars, List.cons_append, List.tail_cons, List.append_assoc, List.nil_append,
    string?]
  rw [stringTail?_escaped (by simp only [List.length_append]; omega)]
  simp

theorem quoteChars_eq (cs : List Char) : quoteChars cs = '"' :: (quoteChars cs).tail := rfl

theorem value?_quoteChars (fuel depth : Nat) (s : String) (rest : List Char) :
    value? (fuel + 1) depth (quoteChars s.toList ++ rest) = some (.string s, rest) := by
  rw [quoteChars_eq, List.cons_append, value?, skipBlanks_quote]
  simp [string?_quoteChars]

/-! ## Strings on lines of their own -/

/-- Strings with commas between them, each after a break. -/
def lines (pad : List Char) (ss : List String) : List Char :=
  Text.join [','] (ss.map fun s => pad ++ quoteChars s.toList)

theorem lines_cons_cons (pad : List Char) (s t : String) (ss : List String) :
    lines pad (s :: t :: ss) = pad ++ (quoteChars s.toList ++ ',' :: lines pad (t :: ss)) := by
  simp [lines, Text.join]

theorem length_le_lines (pad : List Char) (ss : List String) :
    ss.length ≤ (lines pad ss).length := by
  induction ss with
  | nil => exact Nat.zero_le _
  | cons s ss ih =>
    cases ss with
    | nil =>
      simp only [lines, List.map_cons, List.map_nil, Text.join, List.length_append]
      rw [quoteChars_eq]
      simp only [List.length_cons, List.length_nil]
      omega
    | cons t ss =>
      rw [lines_cons_cons, List.length_append, List.length_append]
      simp only [List.length_cons] at ih ⊢
      omega

theorem items?_lines {pad pad' : List Char} (hpad : Blank pad) (hpad' : Blank pad')
    {ss : List String} (hne : ss ≠ []) {fuel : Nat} (hfuel : ss.length < fuel) (depth : Nat)
    (rest : List Char) :
    items? fuel depth (lines pad ss ++ (pad' ++ ']' :: rest)) = some (ss.map .string, rest) := by
  have hitem (fuel : Nat) (s : String) (rest : List Char) :
      value? (fuel + 1) depth (pad ++ (quoteChars s.toList ++ rest)) = some (.string s, rest) := by
    rw [← value?_skipBlanks, skipBlanks_append hpad, value?_skipBlanks, value?_quoteChars]
  induction ss generalizing fuel with
  | nil => exact absurd rfl hne
  | cons s ss ih =>
    obtain ⟨fuel, rfl⟩ := Nat.exists_eq_add_of_lt hfuel
    rw [List.length_cons, items?]
    cases ss with
    | nil =>
      simp only [lines, List.map_cons, List.map_nil, Text.join, List.length_nil]
      rw [List.append_assoc, Nat.zero_add, Nat.add_comm, hitem]
      simp only
      rw [skipBlanks_append hpad']
      rfl
    | cons t ss =>
      have hlen : (t :: ss).length < ss.length + 1 + fuel + 1 := by
        rw [List.length_cons]
        omega
      have hrest := ih (List.cons_ne_nil _ _) hlen
      rw [lines_cons_cons, List.append_assoc, List.append_assoc, List.cons_append,
        List.length_cons, Nat.add_right_comm, hitem]
      simp only [skipBlanks_comma]
      rw [hrest]
      rfl

end AgentDocs.Json
