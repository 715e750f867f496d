import AgentDocs.Command.Error
import AgentDocs.Command.Scope
import AgentDocs.Store.Basic
import AgentDocs.Template.References

/-!
Commands. The text of a command comes from a script: it may ask things of the store, have other
files rendered, and keep entries for the document that is rendered, but it writes no file. A
script sees how each of its actions ended and may go on after one that failed.
-/
namespace AgentDocs
open Template

/-- What a command keeps for the document. -/
structure Entry where
  key : String
  text : String
  deriving DecidableEq, Repr

/-- What a script does to the rendering in which it stands. -/
inductive Action where
  | ask (question : Store.Question)
  | render (job : Job)
  /-- Renders a file as a document among the imported ones, unless it was before, and gives the
  path of the result. -/
  | importFile (template : TemplateScope) (path : Path)
  /-- Keeps an entry of a command for the innermost open document. -/
  | keep (command : String) (entry : Entry)
  /-- Gives the entries of a command for the innermost open document, oldest first. -/
  | kept (command : String)
  | mention (mention : Mention)
  /-- Writes a line into the journal. -/
  | note (line : String)
  deriving Repr

abbrev Action.Answer : Action → Type
  | ask question => Except Store.Error question.Answer
  | render _ => Except RenderError String
  | importFile .. => Except CommandError Path
  | kept _ => List Entry
  | keep .. | mention _ | note _ => Unit

/-- Actions one after another, each chosen by the answers so far, and the result in the end. -/
inductive Script (ε α : Type) where
  | done (result : α)
  | fail (error : ε)
  | act (action : Action) (next : action.Answer → Script ε α)

namespace Script
variable {ε δ α β : Type}

def bind (s : Script ε α) (f : α → Script ε β) : Script ε β :=
  match s with
  | done a => f a
  | fail e => fail e
  | act action next => act action fun x => (next x).bind f

instance : Monad (Script ε) where
  pure := done
  bind := bind

/-- Gives another form to the error. -/
def mapError (wrap : ε → δ) : Script ε α → Script δ α
  | done a => done a
  | fail e => fail (wrap e)
  | act action next => act action fun x => (next x).mapError wrap

def ofExcept : Except ε α → Script ε α
  | .ok a => done a
  | .error e => fail e

end Script

/-- A script of a command. -/
abbrev CommandScript (α : Type) := Script CommandError α

namespace CommandScript
open Script
variable {α : Type}

def ofClass (result : Except ClassError α) : CommandScript α := ofExcept (result.mapError .ofClass)

def ask (q : Store.Question) : CommandScript q.Answer :=
  act (.ask q) fun x => ofExcept (x.mapError .ofStore)

def isFile (p : Path) : CommandScript Bool := ask (.exists? p (some .file))

def readText (p : Path) : CommandScript String := do
  let content ← ask (.read p)
  ofExcept ((content.asText p).mapError .ofStore)

def render (job : Job) : CommandScript String :=
  act (.render job) fun x => ofExcept (x.mapError .ofRender)

def importFile (scope : Scope) (p : Path) : CommandScript Path :=
  act (.importFile scope.template p) ofExcept

def keep (command : String) (e : Entry) : CommandScript Unit := act (.keep command e) done

def kept (command : String) : CommandScript (List Entry) := act (.kept command) done

def mention (scope : Scope) (kind : ReferenceKind) (name : String) : CommandScript Unit :=
  act (.mention ⟨scope.template.source.relative, kind, name⟩) done

def note (line : String) : CommandScript Unit := act (.note line) done

end CommandScript

/-- The phases of a document at which a command may note lines. -/
inductive Phase where
  | begins
  | finishes
  | closes
  deriving DecidableEq, Repr

structure Command where
  name : String
  invoke : Scope → List String → CommandScript String
  /-- Completes a document, given the entries that the command kept for it. -/
  finish : List Entry → String → String := fun _ text => text
  /-- The lines noted in each phase of a document. -/
  notes : Phase → List String := fun _ => []

end AgentDocs
