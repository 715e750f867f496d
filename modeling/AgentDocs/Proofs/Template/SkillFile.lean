import AgentDocs.Proofs.Markup.Frontmatter
import AgentDocs.Proofs.Template.Outputs

/-! # Skill files

A skill is written with its name and description as frontmatter. Both read back, and the content
below them, unless a line of one of them ends the header block or blanks at the end of the description
are lost. -/
namespace AgentDocs.Template
open Markup

/-- The fields in front of a skill. -/
def Skill.header (s : Skill) : List (String × String) :=
  [("name", s.name), ("description", s.description)]

theorem isName_header (s : Skill) : ∀ field ∈ s.header, Yaml.IsName field.1 := by
  have hname : Yaml.IsName "name" := by decide +kernel
  have hdescription : Yaml.IsName "description" := by decide +kernel
  simpa [Skill.header] using ⟨hname, hdescription⟩

/-- A skill file reads back as the description and the name, in the order of their keys, and its
content. -/
theorem Skill.readFrontmatter_output {s : Skill} (hknown : s.knownAs ≠ "")
    (hname : StaysInside s.name.toList) (hdescription : StaysInside s.description.toList)
    (hkeeps : KeepsEnd s.description.toList) {content : String}
    (hcontent : ∀ line ∈ (segments content.toList).head?, Text.allBlank line = false) :
    ∃ o, s.output content = .ok o ∧ readFrontmatter o.content.toList = .ok (some
      ⟨[("description", .string s.description), ("name", .string s.name)], content.toList⟩) := by
  have hinside : ∀ field ∈ s.header, StaysInside field.2.toList := by
    simpa [Skill.header] using ⟨hname, hdescription⟩
  have hlast : ("description", s.description) ∈ s.header.getLast? := rfl
  have hread := readFrontmatter_writeFrontmatter (isName_header s) hlast hkeeps hinside hcontent
  have houtput : s.output content = .ok ⟨s.file,
      writeFrontmatter (Yaml.stringFields s.header) ++ content, .skill s.knownAs⟩ := by
    unfold Skill.output
    exact if_neg (by simpa [Skill.knownAs] using hknown)
  have hsorted : Json.sortMembers (Yaml.stringFields s.header)
      = [("description", .string s.description), ("name", .string s.name)] := by
    have hless : "description" < "name" := by decide +kernel
    simp [Json.sortMembers, Json.insertMember, Yaml.stringFields, Skill.header, hless]
  refine ⟨_, houtput, ?_⟩
  rw [String.toList_append, hread, hsorted]

/-- A name that would mean a boolean, and a description of several lines. -/
def deploySkill : Skill := ⟨"skills/deploy/", "true", "Deploys:\n  - --- \nto \"staging\""⟩

theorem readFrontmatter_deploySkill :
    (deploySkill.knownAs ≠ "" ∧ StaysInside deploySkill.name.toList ∧
        StaysInside deploySkill.description.toList ∧ KeepsEnd deploySkill.description.toList ∧
        ∀ line ∈ (segments "# Deploy\n".toList).head?, Text.allBlank line = false) ∧
      ∃ o, deploySkill.output "# Deploy\n" = .ok o ∧ readFrontmatter o.content.toList = .ok (some
        ⟨[("description", .string "Deploys:\n  - --- \nto \"staging\""), ("name", .string "true")],
          "# Deploy\n".toList⟩) :=
  ⟨by decide +kernel, deploySkill.readFrontmatter_output (by decide +kernel) (by decide +kernel)
    (by decide +kernel) (by decide +kernel) (by decide +kernel)⟩

/-- The string that a document has under a key, and its body. -/
def readField? (key : String) (document : List Char) : Option (String × List Char) :=
  match readFrontmatter document with
  | .ok (some found) =>
    match Json.get? key found.data with
    | some (.string text) => some (text, found.body)
    | _ => none
  | _ => none

/-- A line `---` of a description ends the header block though it is indented, and a line feed at the
end of a description is lost. -/
theorem descriptions_cut :
    (∃ o, Skill.output ⟨"skills/x", "x", "a\n---\nb"⟩ "Body" = .ok o ∧
        readField? "description" o.content.toList = some ("a", "  b\n---\n\nBody".toList)) ∧
      ∃ o, Skill.output ⟨"skills/x", "x", "a\n"⟩ "Body" = .ok o ∧
        readField? "description" o.content.toList = some ("a", "Body".toList) :=
  ⟨⟨_, rfl, by decide +kernel⟩, _, rfl, by decide +kernel⟩

end AgentDocs.Template
