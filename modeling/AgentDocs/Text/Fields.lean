/-!
Cutting a text at a separator, putting fields together again, and searching for a text
within another.
-/
namespace AgentDocs.Text

/-- The fields between the separators; a text without one is a single field. -/
def split (sep : Char) : List Char → List (List Char)
  | [] => [[]]
  | c :: cs =>
    if c = sep then [] :: split sep cs
    else match split sep cs with
      | [] => [[c]]
      | field :: rest => (c :: field) :: rest

/-- The parts before and after the first separator. -/
def splitOnce (sep : Char) : List Char → Option (List Char × List Char)
  | [] => none
  | c :: cs =>
    if c = sep then some ([], cs)
    else (splitOnce sep cs).map fun (a, b) => (c :: a, b)

theorem length_splitOnce {sep : Char} {cs a b : List Char} (h : splitOnce sep cs = some (a, b)) :
    a.length + b.length + 1 = cs.length := by
  induction cs generalizing a with
  | nil => simp [splitOnce] at h
  | cons c cs ih =>
    simp only [splitOnce] at h
    split at h
    · simp only [Option.some.injEq, Prod.mk.injEq] at h
      obtain ⟨rfl, rfl⟩ := h
      simp
    · simp only [Option.map_eq_some_iff, Prod.mk.injEq, Prod.exists] at h
      obtain ⟨a', b', h, rfl, rfl⟩ := h
      have := ih h
      simp only [List.length_cons]
      omega

/-- The fields with `sep` between them. -/
def join (sep : List Char) : List (List Char) → List Char
  | [] => []
  | [field] => field
  | field :: rest => field ++ sep ++ join sep rest

theorem split_ne_nil (sep : Char) (cs : List Char) : split sep cs ≠ [] := by
  cases cs with
  | nil => simp [split]
  | cons c cs =>
    simp only [split]
    split
    · simp
    · split <;> simp

theorem join_split (sep : Char) (cs : List Char) : join [sep] (split sep cs) = cs := by
  induction cs with
  | nil => rfl
  | cons c cs ih =>
    simp only [split]
    obtain ⟨field, rest, h⟩ := List.exists_cons_of_ne_nil (split_ne_nil sep cs)
    rw [h] at ih ⊢
    by_cases hc : c = sep
    · simp only [hc, ↓reduceIte, join, List.nil_append, List.singleton_append, ih]
    · cases rest with
      | nil => simp_all [join]
      | cons next rest => simp_all [join]

/-- Removes `start` from the front of a text. -/
def after? (start : List Char) : List Char → Option (List Char) := fun cs =>
  match start, cs with
  | [], cs => some cs
  | _ :: _, [] => none
  | a :: as, c :: cs => if a = c then after? as cs else none

theorem after?_eq_some_iff {start cs rest : List Char} :
    after? start cs = some rest ↔ cs = start ++ rest := by
  induction start generalizing cs with
  | nil => simp [after?, eq_comm]
  | cons a as ih =>
    cases cs with
    | nil => simp [after?]
    | cons c cs =>
      by_cases h : a = c
      · simp [after?, h, ih]
      · simp [after?, h, Ne.symm h]

/-- Whether a text begins with `start`. -/
def beginsWith (start cs : List Char) : Bool := (after? start cs).isSome

/-- Whether a text ends with `tail`. -/
def endsWith (tail cs : List Char) : Bool := beginsWith tail.reverse cs.reverse

/-- Whether `part` occurs in a text. -/
def occursIn (part : List Char) : List Char → Bool
  | [] => part.isEmpty
  | c :: cs => beginsWith part (c :: cs) || occursIn part cs

/-- Puts `new` in place of each occurrence of `old`, from left to right. -/
def substitute (old new : List Char) (cs : List Char) : List Char :=
  match cs with
  | [] => []
  | c :: rest =>
    match old with
    | [] => c :: rest
    | o :: os =>
      if c = o then
        match _h : after? os rest with
        | some tail => new ++ substitute (o :: os) new tail
        | none => c :: substitute (o :: os) new rest
      else c :: substitute (o :: os) new rest
termination_by cs.length
decreasing_by
  · rw [after?_eq_some_iff.1 _h, List.length_cons, List.length_append]
    omega
  · exact Nat.lt_succ_self _
  · exact Nat.lt_succ_self _

/-- The text before the last separator and the text after it. -/
def splitLast (sep : Char) (cs : List Char) : Option (List Char × List Char) :=
  (splitOnce sep cs.reverse).map fun (a, b) => (b.reverse, a.reverse)

/-- The strings with `sep` between them. -/
def joined (sep : String) (parts : List String) : String :=
  String.ofList (join sep.toList (parts.map String.toList))

/-- The strings between the separators. -/
def fields (sep : Char) (s : String) : List String :=
  (split sep s.toList).map String.ofList

def contains (s part : String) : Bool := occursIn part.toList s.toList

end AgentDocs.Text
