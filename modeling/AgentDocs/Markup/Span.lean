import AgentDocs.Text.Slice

/-!
Spans of bytes in a text, and replacing the items that occupy them. Replacements are asked
for from the last item to the first, so an effect of one item is seen by the items before it.
-/
namespace AgentDocs.Markup

/-- The bytes from `start` up to `stop`. -/
structure Span where
  start : Nat
  stop : Nat
  deriving DecidableEq, Repr, Inhabited

def Span.length (s : Span) : Nat := s.stop - s.start

def Span.isEmpty (s : Span) : Bool := s.start == s.stop

/-- The part of a text that a span covers. -/
def Span.slice (s : Span) (text : List Char) : List Char :=
  Text.takeBytes s.length (Text.dropBytes s.start text)

/-- Replaces items listed from the last to the first; `done` follows the text. -/
def spliceBack {m : Type → Type} [Monad m] {α : Type} (span : α → Span)
    (replace : α → m (Option (List Char))) :
    List α → List Char → List Char → m (List Char)
  | [], text, done => pure (text ++ done)
  | item :: earlier, text, done => do
    let s := span item
    let new ← replace item
    let rest := Text.dropBytes s.start text
    let kept := Text.takeBytes s.length rest
    spliceBack span replace earlier (Text.takeBytes s.start text)
      (new.getD kept ++ Text.dropBytes s.length rest ++ done)

/-- Replaces the items of a text, given in the order of the text and without overlap. An item
whose replacement is `none` stays as it is; the first failure ends the work. -/
def splice {m : Type → Type} [Monad m] {α : Type} (span : α → Span)
    (replace : α → m (Option (List Char))) (items : List α) (text : List Char) :
    m (List Char) :=
  spliceBack span replace items.reverse text []

end AgentDocs.Markup
