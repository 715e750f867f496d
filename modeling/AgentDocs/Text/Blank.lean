/-!
Blank characters, and trimming by them. Two classes are in use: the Unicode property
White_Space, by which texts are trimmed, and the six ASCII blanks that separate the parts
of a placeholder.
-/
namespace AgentDocs.Text

/-- White_Space: 25 code points. -/
def isBlank (c : Char) : Bool :=
  let n := c.toNat
  (0x09 ≤ n && n ≤ 0x0D) || n == 0x20 || n == 0x85 || n == 0xA0 || n == 0x1680
    || (0x2000 ≤ n && n ≤ 0x200A) || n == 0x2028 || n == 0x2029 || n == 0x202F
    || n == 0x205F || n == 0x3000

/-- The blanks inside a placeholder: space, tab, line feed, carriage return, vertical tab,
form feed. -/
def isSpace (c : Char) : Bool :=
  c == ' ' || (0x09 ≤ c.toNat && c.toNat ≤ 0x0D)

theorem isBlank_of_isSpace {c : Char} (h : isSpace c = true) : isBlank c = true := by
  simp only [isSpace, isBlank, Bool.or_eq_true, Bool.and_eq_true, decide_eq_true_eq,
    beq_iff_eq] at h ⊢
  rcases h with rfl | h
  · simp
  · simp [h]

theorem isBlank_of_isWhitespace {c : Char} (h : c.isWhitespace = true) : isBlank c = true := by
  simp only [Char.isWhitespace, Bool.or_eq_true, decide_eq_true_eq] at h
  rcases h with ((rfl | rfl) | rfl) | rfl <;> decide

/-- Drops the longest tail that satisfies `p`. -/
def dropTailWhile (p : Char → Bool) (cs : List Char) : List Char :=
  (cs.reverse.dropWhile p).reverse

def trimLeft (cs : List Char) : List Char := cs.dropWhile isBlank

def trimRight (cs : List Char) : List Char := dropTailWhile isBlank cs

/-- Removes blanks at both ends. -/
def trim (cs : List Char) : List Char := trimRight (trimLeft cs)

/-- Whether a text has no character but blanks. -/
def allBlank (cs : List Char) : Bool := cs.all isBlank

/-- Removes the character `c` at both ends. -/
def trimChar (c : Char) (cs : List Char) : List Char :=
  dropTailWhile (· == c) (cs.dropWhile (· == c))

/-- Applies a function on characters to a string. -/
def onChars (f : List Char → List Char) (s : String) : String := String.ofList (f s.toList)

def trimmed (s : String) : String := onChars trim s

def trimmedRight (s : String) : String := onChars trimRight s

/-- Removes slashes at both ends. -/
def trimSlashes (s : String) : String := onChars (trimChar '/') s

/-- Removes leading slashes. -/
def dropSlashes (s : String) : String := onChars (List.dropWhile (· == '/')) s

end AgentDocs.Text
