import AgentDocs.Text.Fields

/-! # Replacing a text

What replacing does at the front of a text: the text to be replaced gives its replacement, and a
front in which no occurrence begins stays as it is. -/
namespace AgentDocs.Text

variable {old new : List Char}

theorem substitute_append_self (hold : old ≠ []) (rest : List Char) :
    substitute old new (old ++ rest) = new ++ substitute old new rest := by
  obtain ⟨o, os, rfl⟩ := List.exists_cons_of_ne_nil hold
  have hafter : after? os (os ++ rest) = some rest := after?_eq_some_iff.2 rfl
  rw [List.cons_append, substitute.eq_def]
  simp only [↓reduceIte]
  split
  · rename_i tail htail
    rw [hafter] at htail
    rw [Option.some.inj htail]
  · rename_i hnone
    rw [hafter] at hnone
    cases hnone

theorem substitute_cons_of_not_begins {c : Char} {cs : List Char} (h : ¬old <+: c :: cs) :
    substitute old new (c :: cs) = c :: substitute old new cs := by
  cases old with
  | nil => exact absurd List.nil_prefix h
  | cons o os =>
    rw [substitute.eq_def]
    simp only
    split
    · rename_i hc
      split
      · rename_i tail htail
        rw [after?_eq_some_iff.1 htail, hc] at h
        exact absurd (List.prefix_append (o :: os) tail) h
      · rfl
    · rfl

/-- A front in which no occurrence begins stays as it is. -/
theorem substitute_append {front rest : List Char}
    (h : ∀ tail, tail <:+ front → tail ≠ [] → ¬old <+: tail ++ rest) :
    substitute old new (front ++ rest) = front ++ substitute old new rest := by
  induction front with
  | nil => rfl
  | cons c front ih =>
    have hfront : ¬old <+: c :: (front ++ rest) :=
      h (c :: front) List.suffix_rfl (List.cons_ne_nil c front)
    rw [List.cons_append, List.cons_append, substitute_cons_of_not_begins hfront,
      ih fun tail htail => h tail (htail.trans (List.suffix_cons c front))]

end AgentDocs.Text
