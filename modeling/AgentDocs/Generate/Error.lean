import AgentDocs.Command.Error
import AgentDocs.Markup.Frontmatter
import AgentDocs.Markup.Header
import AgentDocs.Template.Fault
import AgentDocs.Template.References

/-! How a run fails. Templates are named by their paths below the root. -/
namespace AgentDocs
open Template

inductive ManifestFault where
  | malformed
  /-- An entry that leads out of the root. -/
  | outside (entry : String)
  deriving DecidableEq, Repr

def ManifestFault.message : ManifestFault → String
  | malformed => "<json>"
  | outside entry => "entry \"" ++ entry ++ "\" is not a path inside the root directory"

inductive ConfigFault where
  | malformed
  | noParent
  deriving DecidableEq, Repr

def ConfigFault.message : ConfigFault → String
  | malformed => "<yaml>"
  | noParent => "configuration file has no parent directory"

inductive GenerateError where
  | missingSourceDir (path : Path)
  | missingFrontmatter (path : String)
  | ofFrontmatter (path : String) (error : Markup.FrontmatterError)
  | ofHeader (path : String) (error : Markup.HeaderError)
  | ofSchema (path : String) (violations : List Violation)
  | ofRender (path : String) (error : RenderError)
  | ofTemplate (path : String) (fault : Fault)
  | duplicateDocs (target first second : String)
  | duplicateArtifact (path first second : String)
  | pathOutsideRoot (path template : String)
  | unknownReference (mention : Mention)
  | ofManifest (path : Path) (fault : ManifestFault)
  | ofParameters (path : Path)
  | ofConfig (path : Path) (fault : ConfigFault)
  | ofStore (error : Store.Error)
  deriving DecidableEq, Repr

/-- A text between double quotes. -/
def inQuotes (text : String) : String := "\"" ++ text ++ "\""

def GenerateError.message : GenerateError → String
  | missingSourceDir path => "Directory " ++ inQuotes path.text ++ " does not exist"
  | missingFrontmatter path => "File " ++ inQuotes path ++ " does not contain frontmatter"
  | ofFrontmatter path error =>
    "File " ++ inQuotes path ++ " has invalid frontmatter: " ++ error.message
  | ofHeader path error => "File " ++ inQuotes path ++ " has invalid headers: " ++ error.message
  | ofSchema path violations => "Invalid frontmatter in " ++ inQuotes path ++ ":\n" ++ report violations
  | ofRender path error => "Rendering " ++ inQuotes path ++ " failed: " ++ error.message
  | ofTemplate path fault =>
    "Generating files from template " ++ inQuotes path ++ " failed: " ++ fault.message
  | duplicateDocs target first second =>
    "Docs target " ++ inQuotes target ++ " is declared by both " ++ inQuotes first ++ " and "
      ++ inQuotes second
  | duplicateArtifact path first second =>
    "Output " ++ inQuotes path ++ " is produced by both " ++ inQuotes first ++ " and "
      ++ inQuotes second
  | pathOutsideRoot path template =>
    "Output " ++ inQuotes path ++ " of template " ++ inQuotes template
      ++ " is outside the root directory"
  | unknownReference mention =>
    "File " ++ inQuotes mention.file ++ " uses unknown " ++ mention.kind.noun ++ " "
      ++ inQuotes mention.name
  | ofManifest path fault => "Invalid manifest " ++ inQuotes path.text ++ ": " ++ fault.message
  | ofParameters path => "Invalid parameters file " ++ inQuotes path.text ++ ": <json>"
  | ofConfig path fault => "Invalid configuration " ++ inQuotes path.text ++ ": " ++ fault.message
  | ofStore error => error.message

end AgentDocs
