/-! The tokens of a YAML text. -/
namespace AgentDocs.Yaml

inductive Token where
  | version (major minor : Nat)
  | tagDirective (handle start : String)
  | documentStart
  | documentEnd
  | blockSequenceStart
  | blockMappingStart
  | blockEnd
  | flowSequenceStart
  | flowSequenceEnd
  | flowMappingStart
  | flowMappingEnd
  | blockEntry
  | flowEntry
  | key
  | value
  | alias (name : String)
  | anchor (name : String)
  | tag (handle suffix : String)
  /-- `plain` tells a bare scalar from a quoted or block one. -/
  | scalar (text : String) (plain : Bool)
  deriving DecidableEq, Repr

end AgentDocs.Yaml
