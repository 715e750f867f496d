import AgentDocs.Template.Spec
import AgentDocs.Text.Blank

/-! The docs that templates declare, as the main document lists them. -/
namespace AgentDocs.Template

structure ListedDoc where
  /-- The path below the root. -/
  path : String
  description : String
  deriving DecidableEq, Repr

/-- Places docs in the directory for docs, in the order of their declaration. Without docs no
directory is needed. -/
def collect (docs : List Doc) (base : Option String) : Option (List ListedDoc) :=
  if docs.isEmpty then some []
  else base.map fun base =>
    let dir := Text.trimSlashes base
    docs.map fun doc =>
      let target := Text.dropSlashes doc.target
      ⟨if dir.isEmpty then target else dir ++ "/" ++ target, doc.description⟩

end AgentDocs.Template
