import AgentDocs.Markup.Frontmatter
import AgentDocs.Path.Normal
import AgentDocs.Template.Fault
import AgentDocs.Text.Blank

/-! The files that the directives of a template declare, by their paths below the root. -/
namespace AgentDocs.Template
open Text

/-- What a file is, besides its content. -/
inductive OutputKind where
  | skill (name : String)
  | command
  | plain
  | doc (doc : Doc)
  deriving DecidableEq, Repr

structure Output where
  target : Path
  content : String
  kind : OutputKind
  deriving DecidableEq, Repr

def Skill.file (s : Skill) : Path := (Path.mk (trimSlashes s.target)).child "SKILL.md"

def Prompt.file (p : Prompt) : Path := ⟨".claude/commands/" ++ p.name ++ ".md"⟩

/-- The file of a target that may begin with slashes. -/
def plainFile (target : String) : Path := ⟨dropSlashes target⟩

def Doc.file (d : Doc) (base : String) : Path := (Path.mk (trimSlashes base)).child (dropSlashes d.target)

/-- Whether a target names a markdown file. -/
def isMarkdown (target : String) : Bool := endsWith ['.', 'm', 'd'] target.toList

/-- A skill is known by the last part of its target. -/
def Skill.output (s : Skill) (content : String) : Except Fault Output :=
  let name := (fields '/' (trimSlashes s.target)).getLast?.getD ""
  if name.isEmpty then .error .emptySkillTarget
  else
    let header := Markup.writeFrontmatter
      [("name", .string s.name), ("description", .string s.description)]
    .ok ⟨s.file, header ++ content, .skill name⟩

def Prompt.output (p : Prompt) (content : String) : Except Fault Output :=
  if Text.contains p.prompt "$ARGUMENTS" then .ok ⟨p.file, content ++ "\n\n" ++ p.prompt, .command⟩
  else .error .promptWithoutArguments

def plainOutput (target content : String) : Except Fault Output :=
  if isMarkdown target then .ok ⟨plainFile target, content, .plain⟩ else .error .outputNotMarkdown

def Doc.output (d : Doc) (base : Option String) (content : String) : Except Fault Output :=
  if !isMarkdown d.target then .error .docsNotMarkdown
  else match base with
    | none => .error .noDirForDocs
    | some base => .ok ⟨d.file base, content, .doc d⟩

/-- The files for a skill, commands, a plain output and docs, in this order. -/
def Spec.outputs (spec : Spec) (docsBase : Option String) (content : String) :
    Except Fault (List Output) := do
  let skill ← spec.skill.toList.mapM (·.output content)
  let commands ← spec.commands.mapM (·.output content)
  let plain ← spec.output.toList.mapM (plainOutput · content)
  let docs ← spec.docs.toList.mapM (·.output docsBase content)
  return skill ++ commands ++ plain ++ docs

/-- The first file that a template declares. -/
def Spec.firstFile? (spec : Spec) (docsBase : Option String) : Option Path :=
  match spec.skill, spec.commands, spec.output, spec.docs, docsBase with
  | some skill, _, _, _, _ => some skill.file
  | none, prompt :: _, _, _, _ => some prompt.file
  | none, [], some target, _, _ => some (plainFile target)
  | none, [], none, some doc, some base => some (doc.file base)
  | _, _, _, _, _ => none

/-- Where the first file of a template will be. -/
def Spec.primaryTarget (spec : Spec) (root : Path) (docsBase : Option String) : Option Path :=
  (spec.firstFile? docsBase).map fun file => (root.join file).normal

/-- The directory from which links of a template are written. -/
def Spec.linkDir (spec : Spec) (root : Path) (docsBase : Option String) : Path :=
  ((spec.primaryTarget root docsBase).bind Path.parent?).getD root

end AgentDocs.Template
