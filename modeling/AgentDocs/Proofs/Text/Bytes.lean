import Mathlib.Tactic.SplitIfs

/-! # The order of bytes

Strings are in the order of their characters, and the bytes of their UTF-8 form are in the same
order: a character that comes first has bytes that come first, whatever follows them. -/
namespace AgentDocs.Text

/-- The bytes of the UTF-8 form. -/
def bytes (s : String) : List UInt8 := s.toUTF8.data.toList

theorem bytes_eq (s : String) : bytes s = s.toList.flatMap String.utf8EncodeChar := by
  have hs : s.toUTF8 = s.toList.utf8Encode := by
    rw [String.toUTF8_eq_toByteArray, ← String.toByteArray_ofList, String.ofList_toList]
  rw [bytes, hs, List.utf8Encode, List.toList_data_toByteArray]

/-- Two bytes that begin two texts, and the rest of the texts. -/
theorem ofNat_cons_lt_iff {m n : Nat} (hm : m < 256) (hn : n < 256) {as bs : List UInt8} :
    UInt8.ofNat m :: as < UInt8.ofNat n :: bs ↔ m < n ∨ m = n ∧ as < bs := by
  rw [List.cons_lt_cons_iff, UInt8.lt_iff_toNat_lt, ← UInt8.toNat_inj, UInt8.toNat_ofNat_of_lt' hm,
    UInt8.toNat_ofNat_of_lt' hn]

/-- The less of two numbers is less in the first place where they differ. -/
theorem digits_lt {m n : Nat} (h : m < n) :
    m / 262144 < n / 262144 ∨ m / 262144 = n / 262144 ∧
      (m / 4096 % 64 < n / 4096 % 64 ∨ m / 4096 % 64 = n / 4096 % 64 ∧
        (m / 64 % 64 < n / 64 % 64 ∨ m / 64 % 64 = n / 64 % 64 ∧ m % 64 < n % 64)) := by
  obtain h | ⟨hhigh, h⟩ : m / 262144 < n / 262144 ∨
      m / 262144 = n / 262144 ∧ m % 262144 < n % 262144 := by omega
  · exact .inl h
  refine .inr ⟨hhigh, ?_⟩
  obtain h | ⟨hmiddle, h⟩ : m / 4096 % 64 < n / 4096 % 64 ∨
      m / 4096 % 64 = n / 4096 % 64 ∧ m % 4096 < n % 4096 := by omega
  · exact .inl h
  refine .inr ⟨hmiddle, ?_⟩
  omega

theorem utf8EncodeChar_lt {c d : Char} (h : c < d) (as bs : List UInt8) :
    String.utf8EncodeChar c ++ as < String.utf8EncodeChar d ++ bs := by
  have hbound : d.val.toNat < 0x110000 := by
    have := d.valid
    omega
  have hdigits := digits_lt (show c.val.toNat < d.val.toNat from h)
  simp only [String.utf8EncodeChar]
  generalize c.val.toNat = m at hdigits ⊢
  generalize d.val.toNat = n at hdigits hbound ⊢
  -- the first byte tells the length, the other bytes are the places of the number
  split_ifs <;> simp only [List.cons_append, List.nil_append]
  all_goals repeat rw [ofNat_cons_lt_iff (by omega) (by omega)]
  all_goals omega

theorem flatMap_utf8EncodeChar_lt {cs ds : List Char} (h : cs < ds) :
    cs.flatMap String.utf8EncodeChar < ds.flatMap String.utf8EncodeChar := by
  induction cs generalizing ds with
  | nil =>
    cases ds with
    | nil => exact absurd h (List.not_lt_nil _)
    | cons d ds =>
      obtain ⟨byte, more, hbytes⟩ := List.exists_cons_of_ne_nil (String.utf8EncodeChar_ne_nil (c := d))
      rw [List.flatMap_cons, hbytes]
      exact List.nil_lt_cons byte _
  | cons c cs ih =>
    cases ds with
    | nil => exact absurd h (List.not_lt_nil _)
    | cons d ds =>
      rw [List.flatMap_cons, List.flatMap_cons]
      rcases List.cons_lt_cons_iff.1 h with hcd | ⟨rfl, hrest⟩
      · exact utf8EncodeChar_lt hcd _ _
      · exact List.append_left_lt (ih hrest)

/-- Strings are in the order of their bytes. -/
theorem bytes_lt_iff {a b : String} : bytes a < bytes b ↔ a < b := by
  rw [bytes_eq, bytes_eq]
  constructor
  · intro h
    refine Decidable.byContradiction fun hnot => ?_
    by_cases hab : a = b
    · rw [hab] at h
      exact List.lt_irrefl _ h
    · have hba : b < a := Std.lt_of_le_of_ne (String.not_lt.1 hnot) (Ne.symm hab)
      exact List.lt_asymm h (flatMap_utf8EncodeChar_lt hba)
  · intro h
    exact flatMap_utf8EncodeChar_lt h

end AgentDocs.Text
