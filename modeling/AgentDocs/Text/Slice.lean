/-!
Offsets into a text count the bytes of its UTF-8 form. A cut at an offset lies between two
characters; one inside a character moves to the end of it.
-/
namespace AgentDocs.Text

/-- The length in bytes. -/
def width : List Char → Nat
  | [] => 0
  | c :: cs => c.utf8Size + width cs

/-- The characters that begin before byte `n`. -/
def takeBytes (n : Nat) : List Char → List Char
  | [] => []
  | c :: cs => if n = 0 then [] else c :: takeBytes (n - c.utf8Size) cs

/-- What is left after `takeBytes n`. -/
def dropBytes (n : Nat) : List Char → List Char
  | [] => []
  | c :: cs => if n = 0 then c :: cs else dropBytes (n - c.utf8Size) cs

@[simp] theorem width_append (a b : List Char) : width (a ++ b) = width a + width b := by
  induction a with
  | nil => simp [width]
  | cons c cs ih => simp [width, ih, Nat.add_assoc]

@[simp] theorem takeBytes_zero (cs : List Char) : takeBytes 0 cs = [] := by
  cases cs <;> simp [takeBytes]

@[simp] theorem dropBytes_zero (cs : List Char) : dropBytes 0 cs = cs := by
  cases cs <;> simp [dropBytes]

theorem takeBytes_append_dropBytes (n : Nat) (cs : List Char) :
    takeBytes n cs ++ dropBytes n cs = cs := by
  induction cs generalizing n with
  | nil => rfl
  | cons c cs ih => by_cases h : n = 0 <;> simp [takeBytes, dropBytes, h, ih]

theorem takeBytes_width (a b : List Char) : takeBytes (width a) (a ++ b) = a := by
  induction a with
  | nil => simp [width]
  | cons c cs ih =>
    have h : c.utf8Size + width cs ≠ 0 := by have := c.utf8Size_pos; omega
    rw [List.cons_append, width, takeBytes, if_neg h, Nat.add_sub_cancel_left, ih]

theorem dropBytes_width (a b : List Char) : dropBytes (width a) (a ++ b) = b := by
  induction a with
  | nil => simp [width]
  | cons c cs ih =>
    have h : c.utf8Size + width cs ≠ 0 := by have := c.utf8Size_pos; omega
    rw [List.cons_append, width, dropBytes, if_neg h, Nat.add_sub_cancel_left, ih]

end AgentDocs.Text
