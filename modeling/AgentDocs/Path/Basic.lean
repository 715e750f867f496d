import AgentDocs.Text.Fields

/-!
Paths. A path keeps the text it was given, and has the parts between its slashes: empty fields
do not count, and `.` counts only in front of a relative path. Two texts with the same parts
name the same place, and paths are ordered by their parts.
-/
namespace AgentDocs
open Text

inductive Part where
  | root
  /-- The directory itself, `.`. -/
  | here
  /-- The directory around it, `..`. -/
  | up
  | name (text : String)
  deriving DecidableEq, Repr, Inhabited

namespace Part

def text : Part → String
  | root => "/"
  | here => "."
  | up => ".."
  | name text => text

def isName : Part → Bool
  | name _ => true
  | _ => false

/-- The part that a field between slashes is; `front` is the front of a relative path. -/
def ofField? (front : Bool) (field : List Char) : Option Part :=
  match field with
  | [] => none
  | ['.'] => if front then some here else none
  | ['.', '.'] => some up
  | _ => some (name (String.ofList field))

/-- The order of parts: the root first, then `.`, then `..`, then the names. -/
def before : Part → Part → Bool
  | root, root => false
  | root, _ => true
  | here, root | here, here => false
  | here, _ => true
  | up, name _ => true
  | up, _ => false
  | name a, name b => a < b
  | name _, _ => false

/-- The order of lists of parts, part by part. -/
def listBefore : List Part → List Part → Bool
  | [], [] => false
  | [], _ :: _ => true
  | _ :: _, [] => false
  | a :: as, b :: bs => if a = b then listBefore as bs else before a b

end Part

structure Path where
  text : String
  deriving DecidableEq, Repr, Inhabited

namespace Path

/-- Whether a path begins at the root. -/
def isAbsolute (p : Path) : Bool := p.text.toList.head? == some '/'

/-- The parts of a text. -/
def partsOf (text : List Char) : List Part :=
  match split '/' text with
  | [] :: field :: rest => .root :: (field :: rest).filterMap (Part.ofField? false)
  | first :: rest =>
    (Part.ofField? true first).toList ++ rest.filterMap (Part.ofField? false)
  | [] => []

def parts (p : Path) : List Part := partsOf p.text.toList

/-- The path with the given parts, written without superfluous slashes. -/
def ofParts : List Part → Path
  | .root :: rest => ⟨"/" ++ joined "/" (rest.map Part.text)⟩
  | parts => ⟨joined "/" (parts.map Part.text)⟩

/-- Whether two paths name the same place. -/
def same (p q : Path) : Bool := p.parts == q.parts

def before (p q : Path) : Bool := Part.listBefore p.parts q.parts

/-- A path read from within a directory. -/
def join (base p : Path) : Path :=
  if p.isAbsolute then p
  else if base.text.isEmpty || base.text.toList.getLast? == some '/' then ⟨base.text ++ p.text⟩
  else ⟨base.text ++ "/" ++ p.text⟩

def child (base : Path) (name : String) : Path := base.join ⟨name⟩

/-- Whether a path lies in a directory or is the directory. -/
def isWithin (p dir : Path) : Bool := dir.parts.isPrefixOf p.parts

/-- The parts below a directory. -/
def below? (p dir : Path) : Option (List Part) :=
  if p.isWithin dir then some (p.parts.drop dir.parts.length) else none

/-- The last part, if it is a name. -/
def fileName? (p : Path) : Option String :=
  match p.parts.getLast? with
  | some (.name text) => some text
  | _ => none

/-- A file name before its last point and behind it; a name that only begins with a point has
no extension. -/
def splitName (name : String) : String × Option String :=
  match splitLast '.' name.toList with
  | none | some ([], _) => (name, none)
  | some (stem, extension) => (String.ofList stem, some (String.ofList extension))

def stem? (p : Path) : Option String := p.fileName?.map fun name => (splitName name).1

def extension? (p : Path) : Option String := p.fileName?.bind fun name => (splitName name).2

/-! ## Directories around a path -/

/-- Drops the fields at the end that are no part of a path, given from last to first. -/
def dropVoid : List (List Char) → List (List Char)
  | [] => []
  | [first] => [first]
  | field :: rest => if (Part.ofField? false field).isSome then field :: rest else dropVoid rest

/-- The fields around the last part, from last to first. -/
def around? (fields : List (List Char)) : Option (List (List Char)) :=
  match dropVoid fields with
  | [] => none
  | [last] => if last.isEmpty then none else some []
  | _ :: field :: rest => some (dropVoid (field :: rest))

def ofFields : List (List Char) → Path
  | [[]] => ⟨"/"⟩
  | fields => ⟨String.ofList (Text.join ['/'] fields.reverse)⟩

/-- The directory around a path; `/` and the empty path have none. -/
def parent? (p : Path) : Option Path :=
  (around? (split '/' p.text.toList).reverse).map ofFields

theorem length_dropVoid_le (fields : List (List Char)) :
    (dropVoid fields).length ≤ fields.length := by
  fun_induction dropVoid fields with
  | case1 => exact Nat.le_refl _
  | case2 => exact Nat.le_refl _
  | case3 => exact Nat.le_refl _
  | case4 field rest _ _ ih => exact Nat.le_succ_of_le ih

theorem length_around?_lt {fields outer : List (List Char)} (h : around? fields = some outer) :
    outer.length < fields.length := by
  have hd := length_dropVoid_le fields
  unfold around? at h
  split at h
  next => cases h
  next last hs =>
    split at h
    · cases h
    · cases h
      rw [hs] at hd
      exact hd
  next first field rest hs =>
    cases h
    have hr := length_dropVoid_le (field :: rest)
    rw [hs] at hd
    simp only [List.length_cons] at hd hr ⊢
    omega

/-- The directories around a path, from the inside out. -/
def outward (fields : List (List Char)) : List Path :=
  match _h : around? fields with
  | none => []
  | some outer => ofFields outer :: outward outer
termination_by fields.length
decreasing_by exact length_around?_lt _h

/-- A path and all directories around it. -/
def ancestors (p : Path) : List Path := p :: outward (split '/' p.text.toList).reverse

end Path
end AgentDocs
