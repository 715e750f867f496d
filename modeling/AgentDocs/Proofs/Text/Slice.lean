import AgentDocs.Text.Slice

/-! # Offsets into a text

An offset that is the width of a front of a text lies between two characters of its UTF-8 form. -/
namespace AgentDocs.Text

theorem width_eq (cs : List Char) : width cs = (String.ofList cs).utf8ByteSize := by
  induction cs with
  | nil => rfl
  | cons c cs ih =>
    rw [width, ih, String.ofList_cons, String.utf8ByteSize_append, String.utf8ByteSize_singleton]

theorem width_pos {cs : List Char} (h : cs ≠ []) : 0 < width cs := by
  cases cs with
  | nil => exact absurd rfl h
  | cons c cs => exact Nat.add_pos_left c.utf8Size_pos _

theorem isValid_of_append {text a b : List Char} (h : text = a ++ b) :
    String.Pos.Raw.IsValid (String.ofList text) ⟨width a⟩ := by
  rw [String.Pos.Raw.isValid_iff_exists_append]
  refine ⟨String.ofList a, String.ofList b, by rw [h, String.ofList_append], ?_⟩
  rw [width_eq]
  rfl

end AgentDocs.Text
