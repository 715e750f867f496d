import AgentDocs.Classes.Index
import AgentDocs.Store.Error
import AgentDocs.Template.Spec

/-! Why the files that a template declares cannot be made. -/
namespace AgentDocs.Template

inductive Fault where
  | ofClass (error : ClassError)
  | ofStore (error : Store.Error)
  | unreadableClass (name : String)
  | unreadableExample (reference : String)
  | unsupportedExtension (extension : String)
  /-- An example without a text that must occur in it. -/
  | missingText (source : ExampleSource) (text : String)
  | emptySkillTarget
  | promptWithoutArguments
  | outputNotMarkdown
  | docsNotMarkdown
  | noDirForDocs
  | noDirForList
  /-- A header for a command without `--`. -/
  | commandWithoutPrompt (value : String)
  | severalPrompts
  | promptRequired
  deriving DecidableEq, Repr

def ExampleSource.noun : ExampleSource → String
  | className name => "class \"" ++ name ++ "\""
  | file reference => "file \"" ++ reference ++ "\""

def Fault.message : Fault → String
  | ofClass error => error.message
  | ofStore error => error.message
  | unreadableClass name => "Unable to read file for class \"" ++ name ++ "\"."
  | unreadableExample reference =>
    "Example file \"" ++ reference ++ "\" does not exist or is not readable."
  | unsupportedExtension extension => "Unsupported example file extension \"" ++ extension ++ "\"."
  | missingText source text =>
    "Example for " ++ source.noun ++ " does not contain required string \"" ++ text ++ "\"."
  | emptySkillTarget => "Skill target must not be empty."
  | promptWithoutArguments => "Command prompt must contain \"$ARGUMENTS\" placeholder."
  | outputNotMarkdown => "Output target must be a markdown file with \".md\" extension."
  | docsNotMarkdown => "Docs target must be a markdown file with \".md\" extension."
  | noDirForDocs => "Docs base path is not set, cannot create docs."
  | noDirForList => "Docs base path is not set, cannot list docs."
  | commandWithoutPrompt value =>
    "Invalid claude-command header \"" ++ value ++ "\". It must contain a prompt after \"--\"."
  | severalPrompts => "Multiple claude-command-prompt headers found. Only one is allowed."
  | promptRequired =>
    "claude-command-prompt header is required when claude-command-target headers are present."

end AgentDocs.Template
