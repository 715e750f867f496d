import AgentDocs.Yaml.Lexer
import AgentDocs.Yaml.Writer

/-! # Escapes

A character that may not stand between double quotes is written behind a backslash: by a letter of
its own, or by its number in as many digits as its size asks for. Reading an escape gives back the
character and passes over no more than the escape. -/
namespace AgentDocs.Yaml
open Page

/-! ## Hexadecimal numbers -/

theorem hexDigit?_digitChar {n : Nat} (h : n < 16) : hexDigit? n.digitChar.toUpper = some n := by
  have hall : ∀ n : Fin 16, hexDigit? n.val.digitChar.toUpper = some n.val := by decide
  exact hall ⟨n, h⟩

/-- The number of hexadecimal digits. -/
def hexFold (ds : List Char) : Option Nat :=
  ds.foldl (fun acc c => do return (← acc) * 16 + (← hexDigit? c)) (some 0)

theorem hexFold_toDigits (n : Nat) : hexFold ((Nat.toDigits 16 n).map Char.toUpper) = some n := by
  rw [Nat.toDigits_eq_if (by omega)]
  by_cases h : n < 16
  · simp [h, hexFold, hexDigit?_digitChar h]
  · have hrest := hexFold_toDigits (n / 16)
    rw [hexFold] at hrest
    simp only [if_neg h, List.map_append, hexFold, List.foldl_append, hrest]
    simp [hexDigit?_digitChar (Nat.mod_lt n (by omega : 0 < 16)), Nat.div_add_mod']
termination_by n

theorem hexFold_zeros (k : Nat) (ds : List Char) :
    hexFold (List.replicate k '0' ++ ds) = hexFold ds := by
  induction k with
  | zero => rfl
  | succ k ih => exact ih

theorem length_hex {k n : Nat} (hk : 0 < k) (h : n < Nat.pow 16 k) : (hex k n).length = k := by
  have hlength := (Nat.length_toDigits_le_iff (by omega) hk).2 h
  simp only [hex, List.length_append, List.length_replicate, List.length_map]
  omega

/-- A number reads back from its digits, whatever comes behind them. -/
theorem hexNumber?_hex {k n : Nat} (hk : 0 < k) (h : n < Nat.pow 16 k) (after : List Char) :
    hexNumber? k (hex k n ++ after) = some n := by
  have hlength := length_hex hk h
  have hshort : ¬ (hex k n ++ after).length < k := by
    rw [List.length_append]
    omega
  rw [hexNumber?, if_neg hshort, List.take_append_of_le_length (by omega),
    List.take_of_length_le (by omega)]
  exact (hexFold_zeros _ _).trans (hexFold_toDigits n)

/-! ## Characters -/

/-- A printable character that may stand between double quotes. -/
def isBare (c : Char) : Bool := isPrintable c && !isBreak c && c != '"' && c != '\\'

theorem escaped_of_isBare {c : Char} (h : isBare c = true) : escaped c = [c] := if_pos h

/-- The characters that have a letter of their own. -/
def lettered : List Char :=
  ['\x00', '\x07', '\x08', '\x09', '\x0A', '\x0B', '\x0C', '\x0D', '\x1B', '"', '\\', '\u0085', '\u2028',
    '\u2029']

theorem escaped_of_lettered : ∀ c ∈ lettered, ∃ x, escaped c = ['\\', x] ∧ isBreak x = false ∧
    ∀ after, escaped? (x :: after) = some (c, 1) := by
  simp only [lettered, List.forall_mem_cons, List.not_mem_nil, false_imp_iff, implies_true, and_true]
  refine ⟨?_, ?_, ?_, ?_, ?_, ?_, ?_, ?_, ?_, ?_, ?_, ?_, ?_, ?_⟩ <;>
    exact ⟨_, rfl, rfl, fun _ => rfl⟩

theorem escaped_of_number {c : Char} (h : isBare c = false) (hc : c ∉ lettered) :
    escaped c = '\\' :: (if c.toNat ≤ 0xFF then 'x' :: hex 2 c.toNat
      else if c.toNat ≤ 0xFFFF then 'u' :: hex 4 c.toNat else 'U' :: hex 8 c.toNat) := by
  have hne : ∀ d ∈ lettered, c.toNat ≠ d.toNat := by
    intro d hd heq
    rw [Char.toNat_inj.1 heq] at hc
    exact hc hd
  simp only [lettered, List.forall_mem_cons, Char.reduceToNat, ne_eq] at hne
  have hbare : ¬ (isPrintable c && !isBreak c && c != '"' && c != '\\') = true := by
    rw [← isBare, h]
    decide
  rw [escaped, if_neg hbare]
  simp [hne]

/-- The number of a character is never refused: it is no surrogate and not too large. -/
theorem escaped?_number {c x : Char} {k : Nat} (hx : (x, k) ∈ [('x', 2), ('u', 4), ('U', 8)])
    (h : c.toNat < Nat.pow 16 k) (after : List Char) :
    escaped? (x :: hex k c.toNat ++ after) = some (c, k + 1) := by
  have hvalid : ¬ ((0xD800 ≤ c.toNat ∧ c.toNat ≤ 0xDFFF) ∨ 0x10FFFF < c.toNat) := by
    have := c.valid
    simp only [UInt32.isValidChar, Nat.isValidChar, Char.toNat] at this ⊢
    omega
  have hnumber := fun hk : 0 < k => hexNumber?_hex hk h after
  simp only [List.mem_cons, Prod.mk.injEq, List.not_mem_nil, or_false] at hx
  obtain ⟨rfl, rfl⟩ | ⟨rfl, rfl⟩ | ⟨rfl, rfl⟩ := hx <;>
    simp [escaped?, hnumber, hvalid]

/-- What stands behind the backslash of an escape, and what is read from it. -/
theorem escaped_of_not_isBare {c : Char} (h : isBare c = false) :
    ∃ x rest, escaped c = '\\' :: x :: rest ∧ isBreak x = false ∧
      ∀ after, escaped? (x :: rest ++ after) = some (c, rest.length + 1) := by
  by_cases hc : c ∈ lettered
  · obtain ⟨x, heq, hbreak, hread⟩ := escaped_of_lettered c hc
    exact ⟨x, [], heq, hbreak, hread⟩
  · rw [escaped_of_number h hc]
    have hlarge : c.toNat < 0x100000000 := by
      have := c.valid
      simp only [UInt32.isValidChar, Nat.isValidChar, Char.toNat] at this ⊢
      omega
    by_cases htwo : c.toNat ≤ 0xFF
    · have hlt : c.toNat < Nat.pow 16 2 := Nat.lt_succ_of_le htwo
      refine ⟨'x', hex 2 c.toNat, by rw [if_pos htwo], rfl, fun after => ?_⟩
      rw [escaped?_number (by simp) hlt, length_hex (by omega) hlt]
    · by_cases hfour : c.toNat ≤ 0xFFFF
      · have hlt : c.toNat < Nat.pow 16 4 := Nat.lt_succ_of_le hfour
        refine ⟨'u', hex 4 c.toNat, by rw [if_neg htwo, if_pos hfour], rfl, fun after => ?_⟩
        rw [escaped?_number (by simp) hlt, length_hex (by omega) hlt]
      · refine ⟨'U', hex 8 c.toNat, by rw [if_neg htwo, if_neg hfour], rfl, fun after => ?_⟩
        rw [escaped?_number (by simp) hlarge, length_hex (by omega) hlarge]

end AgentDocs.Yaml
