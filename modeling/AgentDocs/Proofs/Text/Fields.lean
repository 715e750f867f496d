import AgentDocs.Text.Fields

/-! # Fields of joined texts

Cutting undoes joining where no field has the separator, and a cut distributes over a separator
that stands in a text. A text is found in another where it stands. -/
namespace AgentDocs.Text

theorem split_append_cons (sep : Char) (a b : List Char) :
    split sep (a ++ sep :: b) = split sep a ++ split sep b := by
  induction a with
  | nil => simp [split]
  | cons c a ih =>
    simp only [List.cons_append, split, ih]
    split
    · rfl
    · obtain ⟨field, rest, h⟩ := List.exists_cons_of_ne_nil (split_ne_nil sep a)
      simp [h]

/-- Text behind a text goes on with its last field. -/
theorem exists_split_append (sep : Char) (a : List Char) :
    ∃ front last, split sep a = front ++ [last] ∧ ∀ {b field : List Char} {rest : List (List Char)},
      split sep b = field :: rest → split sep (a ++ b) = front ++ (last ++ field) :: rest := by
  induction a with
  | nil => exact ⟨[], [], rfl, fun h => h⟩
  | cons c a ih =>
    obtain ⟨front, last, ha, happend⟩ := ih
    by_cases hc : c = sep
    · exact ⟨[] :: front, last, by simp [split, hc, ha], fun h => by simp [split, hc, happend h]⟩
    · cases front with
      | nil => exact ⟨[], c :: last, by simp [split, hc, ha], fun h => by simp [split, hc, happend h]⟩
      | cons field front =>
        exact ⟨(c :: field) :: front, last, by simp [split, hc, ha],
          fun h => by simp [split, hc, happend h]⟩

theorem split_of_notMem {sep : Char} {cs : List Char} (h : sep ∉ cs) : split sep cs = [cs] := by
  induction cs with
  | nil => rfl
  | cons c cs ih =>
    simp only [List.mem_cons, not_or] at h
    simp [split, ih h.2, Ne.symm h.1]

/-- Text behind a text without a separator is in one field with it. -/
theorem split_append_of_notMem {sep : Char} {a b field : List Char} {rest : List (List Char)}
    (ha : sep ∉ a) (hb : split sep b = field :: rest) : split sep (a ++ b) = (a ++ field) :: rest := by
  obtain ⟨front, last, hsplit, happend⟩ := exists_split_append sep a
  rw [split_of_notMem ha] at hsplit
  obtain ⟨rfl, hlast⟩ | ⟨-, hnil⟩ := List.singleton_eq_append_iff.1 hsplit
  · rw [happend hb, List.nil_append, List.singleton_inj.1 hlast]
  · cases hnil

theorem notMem_of_mem_split {sep : Char} {cs field : List Char} (h : field ∈ split sep cs) :
    sep ∉ field := by
  induction cs generalizing field with
  | nil =>
    obtain rfl : field = [] := by simpa [split] using h
    simp
  | cons c cs ih =>
    obtain ⟨first, rest, hs⟩ := List.exists_cons_of_ne_nil (split_ne_nil sep cs)
    rw [hs] at ih
    simp only [split, hs] at h
    split at h
    · rcases List.mem_cons.1 h with rfl | h
      · simp
      · exact ih h
    · rename_i hc
      rcases List.mem_cons.1 h with rfl | h
      · have hfirst := ih List.mem_cons_self
        simp [hfirst, Ne.symm hc]
      · exact ih (List.mem_cons_of_mem _ h)

/-- The fields hold what the text does. -/
theorem mem_of_mem_split {sep : Char} {cs field : List Char} {c : Char} (h : field ∈ split sep cs)
    (hc : c ∈ field) : c ∈ cs := by
  induction cs generalizing field with
  | nil =>
    obtain rfl : field = [] := by simpa [split] using h
    cases hc
  | cons d cs ih =>
    obtain ⟨first, rest, hs⟩ := List.exists_cons_of_ne_nil (split_ne_nil sep cs)
    rw [hs] at ih
    simp only [split, hs] at h
    split at h
    · rcases List.mem_cons.1 h with rfl | h
      · cases hc
      · exact List.mem_cons_of_mem _ (ih h hc)
    · rcases List.mem_cons.1 h with rfl | h
      · rcases List.mem_cons.1 hc with rfl | hc
        · exact List.mem_cons_self
        · exact List.mem_cons_of_mem _ (ih List.mem_cons_self hc)
      · exact List.mem_cons_of_mem _ (ih (List.mem_cons_of_mem _ h) hc)

theorem split_join {sep : Char} {fs : List (List Char)} (hne : fs ≠ [])
    (h : ∀ f ∈ fs, sep ∉ f) : split sep (join [sep] fs) = fs := by
  induction fs with
  | nil => exact absurd rfl hne
  | cons f fs ih =>
    have hf := h f List.mem_cons_self
    cases fs with
    | nil => simpa [join] using split_of_notMem hf
    | cons g gs =>
      have hrest := ih (List.cons_ne_nil _ _) fun f hf => h f (List.mem_cons_of_mem _ hf)
      simp only [join, List.append_assoc, List.singleton_append] at hrest ⊢
      rw [split_append_cons, split_of_notMem hf, hrest]
      rfl

theorem join_append {sep : List Char} {as bs : List (List Char)} (ha : as ≠ []) (hb : bs ≠ []) :
    join sep (as ++ bs) = join sep as ++ sep ++ join sep bs := by
  induction as with
  | nil => exact absurd rfl ha
  | cons a as ih =>
    cases as with
    | nil =>
      obtain ⟨b, bs, rfl⟩ := List.exists_cons_of_ne_nil hb
      rfl
    | cons c as =>
      have hrest := ih (List.cons_ne_nil c as)
      simp only [List.cons_append, join, List.append_assoc] at hrest ⊢
      rw [hrest]

/-! ## Cutting once -/

theorem eq_of_splitOnce {sep : Char} {cs a b : List Char} (h : splitOnce sep cs = some (a, b)) :
    cs = a ++ sep :: b := by
  induction cs generalizing a with
  | nil => cases h
  | cons c cs ih =>
    simp only [splitOnce] at h
    split at h
    · rename_i hc
      cases h
      rw [hc]
      rfl
    · obtain ⟨⟨a', b'⟩, hrest, heq⟩ := Option.map_eq_some_iff.1 h
      cases heq
      rw [ih hrest]
      rfl

theorem splitOnce_append {sep : Char} {text : List Char} (h : sep ∉ text) (rest : List Char) :
    splitOnce sep (text ++ sep :: rest) = some (text, rest) := by
  induction text with
  | nil => simp [splitOnce]
  | cons c text ih =>
    rw [List.mem_cons, not_or] at h
    rw [List.cons_append, splitOnce, if_neg (Ne.symm h.1), ih h.2]
    rfl

theorem splitOnce_of_notMem {sep : Char} {cs : List Char} (h : sep ∉ cs) : splitOnce sep cs = none := by
  induction cs with
  | nil => rfl
  | cons c cs ih =>
    rw [List.mem_cons, not_or] at h
    rw [splitOnce, if_neg (Ne.symm h.1), ih h.2]
    rfl

theorem eq_of_splitLast {sep : Char} {cs a b : List Char} (h : splitLast sep cs = some (a, b)) :
    cs = a ++ sep :: b := by
  obtain ⟨⟨x, y⟩, hsplit, heq⟩ := Option.map_eq_some_iff.1 h
  cases heq
  rw [← List.reverse_reverse cs, eq_of_splitOnce hsplit]
  simp

theorem splitLast_append {sep : Char} {text : List Char} (h : sep ∉ text) (front : List Char) :
    splitLast sep (front ++ sep :: text) = some (front, text) := by
  have hreverse : (front ++ sep :: text).reverse = text.reverse ++ sep :: front.reverse := by simp
  rw [splitLast, hreverse, splitOnce_append (fun hmem => h (List.mem_reverse.1 hmem))]
  simp

/-! ## Searching -/

theorem beginsWith_iff {start cs : List Char} : beginsWith start cs = true ↔ start <+: cs := by
  rw [beginsWith, Option.isSome_iff_exists]
  exact exists_congr fun rest => after?_eq_some_iff.trans eq_comm

theorem occursIn_iff {part cs : List Char} : occursIn part cs = true ↔ part <:+: cs := by
  induction cs with
  | nil => rw [occursIn, List.isEmpty_iff, List.infix_nil]
  | cons c cs ih => rw [occursIn, Bool.or_eq_true, beginsWith_iff, ih, List.infix_cons_iff]

end AgentDocs.Text
