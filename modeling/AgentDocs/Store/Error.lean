import AgentDocs.Path.Basic
import AgentDocs.Store.Pattern

/-! What a store holds in a file, and how its operations fail. -/
namespace AgentDocs.Store

/-- What a file holds: a text, or bytes that are not UTF-8. -/
inductive Content where
  | text (value : String)
  | binary (bytes : List UInt8)
  deriving DecidableEq, Repr, Inhabited

/-- The content with the given bytes. -/
def Content.ofBytes (bytes : List UInt8) : Content :=
  match String.fromUTF8? ⟨bytes.toArray⟩ with
  | some value => .text value
  | none => .binary bytes

/-- Why a call on a file system fails. -/
inductive Fault where
  | missing
  | notADirectory
  | isADirectory
  | alreadyExists
  | notEmpty
  | nameTooLong
  | nulInName
  | invalidArgument
  | busy
  /-- Not empty, in a store that is kept in memory. -/
  | occupied
  deriving DecidableEq, Repr

def Fault.message : Fault → String
  | missing => "No such file or directory (os error 2)"
  | notADirectory => "Not a directory (os error 20)"
  | isADirectory => "Is a directory (os error 21)"
  | alreadyExists => "File exists (os error 17)"
  | notEmpty => "Directory not empty (os error 39)"
  | nameTooLong => "File name too long (os error 36)"
  | nulInName => "file name contained an unexpected NUL byte"
  | invalidArgument => "Invalid argument (os error 22)"
  | busy => "Device or resource busy (os error 16)"
  | occupied => "directory not empty"

inductive Error where
  | io (path : Path) (fault : Fault)
  | notFound (path : Path)
  | invalidUtf8 (path : Path)
  | invalidPattern (pattern : String) (error : PatternError)
  deriving DecidableEq, Repr

namespace Error

def message : Error → String
  | io path fault => "I/O error on " ++ path.text ++ ": " ++ fault.message
  | notFound path => "Path not found: " ++ path.text
  | invalidUtf8 path => "File is not valid UTF-8: " ++ path.text
  | invalidPattern pattern error => "Invalid pattern '" ++ pattern ++ "': " ++ error.message

/-- A fault at a path; a missing file has an error of its own. -/
def ofFault (path : Path) : Fault → Error
  | .missing => notFound path
  | fault => io path fault

end Error

inductive Kind where
  | file
  | directory
  deriving DecidableEq, Repr

/-- The text of a file that was read. -/
def Content.asText (path : Path) : Content → Except Error String
  | .text value => .ok value
  | .binary _ => .error (.invalidUtf8 path)

/-- The pieces of a pattern for file names. -/
def compile (pattern : String) : Except Error (List Piece) :=
  (pieces pattern).mapError (.invalidPattern pattern)

/-- Whether the name at the end of a path is an instance of a pattern. -/
def nameAdmitted (pattern : List Piece) (p : Path) : Bool :=
  match p.fileName? with
  | some name => admits pattern name.toList
  | none => false

end AgentDocs.Store
