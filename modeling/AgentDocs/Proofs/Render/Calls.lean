import AgentDocs.Proofs.Render.Trace

/-! # Documents that are rendered one after the other

One renderer renders any number of documents. What it remembers is passed on from each to the
next, whether it failed or not. -/
namespace AgentDocs
open Effect Store Session

/-- A document that a renderer is asked for. -/
structure Call where
  template : TemplateScope
  path : Path
  targetDir : Path
  content : Option String

def Call.job (c : Call) : Job := ⟨.document, c.template, c.path, c.targetDir, c.content⟩

namespace Renderer
variable {r : Renderer}

def call (r : Renderer) (c : Call) : Rendering String :=
  render r c.template c.path c.targetDir c.content

/-- The session after some documents. -/
def after (r : Renderer) (calls : List Call) (s : Session) : Session :=
  calls.foldl (fun s c => (r.call c s).2) s

def callTrace (r : Renderer) (c : Call) (s : Session) : Trace :=
  traceWithin r (depthFor s.store) c.job s

/-- All that happens while documents are rendered. -/
def callsTrace (r : Renderer) : List Call → Session → Trace
  | [], _ => []
  | c :: calls, s => callTrace r c s ++ callsTrace r calls (r.call c s).2

theorem call_apply (c : Call) (s : Session) :
    r.call c s = renderWithin r (depthFor s.store) c.job s := by
  rw [call, render, bind_ok (get_apply s)]
  rfl

theorem depthFor_congr {a b : Store} (h : SameContent a b) : depthFor a = depthFor b := by
  rw [depthFor, depthFor, h.files]

theorem moves_call (c : Call) : Moves Steady (r.call c) := moves_render _ _ _ _

/-- What the commands kept for a document is forgotten after it. -/
theorem documents_call (c : Call) (s : Session) : s.documents = (r.call c s).2.documents := by
  rw [call_apply]
  exact documents_renderWithin _ rfl s

theorem steady_after (calls : List Call) (s : Session) : Steady s (r.after calls s) := by
  induction calls generalizing s with
  | nil => exact Std.Refl.refl s
  | cons c calls ih => exact Trans.trans (moves_call c s) (ih _)

end Renderer

/-- A renderer starts with nothing remembered. -/
theorem Session.faithful_start (store : Store) (known : List (Path × Path)) :
    ((start store).withTargets known).Faithful := nofun

end AgentDocs
