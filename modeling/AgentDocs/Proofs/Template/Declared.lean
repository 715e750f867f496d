import AgentDocs.Proofs.Template.Checked
import AgentDocs.Template.Spec

/-! # What directives declare

A mapping is a template's if every directive in it says something. All that it says is then in the
template, and nothing else. Otherwise the faults of all directives are told, those of each directive
as if it were the only one. -/
namespace AgentDocs.Template
open Checked

/-! ## One directive -/

def IsRank (v : Json) (p : Priority) : Prop :=
  ∃ rank ≤ highestRank, v = .number (.int rank) ∧ p = .ranked rank

def IsMetadata : Json → Priority → Prop :=
  MappingOf ["priority"] fun members => Declares members "priority" default IsRank

def IsMacros : Json → Bool → Prop :=
  MappingOf ["disabled"] fun members => Declares members "disabled" false IsFlag

/-- A class by its name alone, or with the visibilities to show. -/
inductive IsApiEntry : Json → ApiEntry → Prop
  | name {v : Json} {name : String} (h : IsText v name) : IsApiEntry v ⟨name, .publicOnly⟩
  | mapping {v : Json} {name : String} {visibilities : List String}
    (h : MappingOf ["class", "visibilities"] (fun members e => HasText members "class" e.1 ∧
      Declares members "visibilities" [] (ListOf IsText) e.2) v (name, visibilities)) :
    IsApiEntry v ⟨name, .ofList visibilities⟩

/-- A mapping names a class or a file, and not both. -/
inductive HasSource (members : List (String × Json)) : ExampleSource → Prop
  | className {name : String} (h : HasText members "class" name)
    (hother : Json.get? "file" members = none) : HasSource members (.className name)
  | file {reference : String} (h : HasText members "file" reference)
    (hother : Json.get? "class" members = none) : HasSource members (.file reference)

/-- A class by its name alone, or a source with the texts that must occur in it. -/
inductive IsExample : Json → ExampleEntry → Prop
  | name {v : Json} {name : String} (h : IsText v name) : IsExample v ⟨.className name, []⟩
  | mapping {v : Json} {e : ExampleEntry}
    (h : MappingOf ["class", "file", "contains"] (fun members e => HasSource members e.source ∧
      Declares members "contains" [] (ListOf IsText) e.contains) v e) : IsExample v e

def IsSkill : Json → Skill → Prop :=
  MappingOf ["target", "name", "description"] fun members s =>
    HasText members "target" s.target ∧ HasText members "name" s.name ∧
      HasText members "description" s.description

def IsOutput : Json → String → Prop :=
  MappingOf ["target"] fun members => HasText members "target"

def IsDoc : Json → Doc → Prop :=
  MappingOf ["target", "description"] fun members d =>
    HasText members "target" d.target ∧ HasText members "description" d.description

def IsPrompt : Json → Prompt → Prop :=
  MappingOf ["name", "prompt"] fun members p =>
    HasText members "name" p.name ∧ HasText members "prompt" p.prompt

theorem rank?_eq_some_iff {v : Json} {rank : Nat} :
    rank? v = some rank ↔ rank ≤ highestRank ∧ v = .number (.int rank) := by
  constructor
  · intro h
    unfold rank? at h
    split at h
    · rename_i i
      split at h
      · rename_i hrange
        obtain rfl := Option.some.inj h
        exact ⟨by omega, by rw [Int.toNat_of_nonneg hrange.1]⟩
      · cases h
    · cases h
  · rintro ⟨hrange, rfl⟩
    rw [rank?, if_pos ⟨by omega, by omega⟩, Int.toNat_natCast]

theorem reads_readRank : Reads readRank IsRank := by
  intro path v p
  unfold readRank
  cases hrank : rank? v with
  | some rank =>
    obtain ⟨hrange, hv⟩ := rank?_eq_some_iff.1 hrank
    rw [pure_inj]
    constructor
    · rintro rfl
      exact ⟨rank, hrange, hv, rfl⟩
    · rintro ⟨other, hother, hv', rfl⟩
      have hsame := hrank.symm.trans (rank?_eq_some_iff.2 ⟨hother, hv'⟩)
      exact congrArg Priority.ranked (Option.some.inj hsame)
  | none =>
    refine ⟨fun h => absurd (eq_pure_iff.1 h).1 (List.cons_ne_nil _ _), ?_⟩
    rintro ⟨other, hother, hv', rfl⟩
    exact nomatch hrank.symm.trans (rank?_eq_some_iff.2 ⟨hother, hv'⟩)

theorem reads_readMetadata : Reads readMetadata IsMetadata := by
  intro path v p
  rw [readMetadata, mapping_bind_iff]
  simp only [Section.optional_eq_pure_iff reads_readRank]
  rfl

theorem reads_readFlag : Reads readFlag IsFlag := by
  intro path v flag
  rw [readFlag, reads_boolean.bind_iff]
  simp only [pure_inj, Option.getD_some]
  exact exists_eq_right

theorem reads_readMacros : Reads readMacros IsMacros := by
  intro path v flag
  rw [readMacros, mapping_bind_iff]
  simp only [Section.optional_eq_pure_iff reads_readFlag]
  rfl

theorem reads_readSkill : Reads readSkill (Just IsSkill) := by
  intro path v x
  rw [readSkill, mapping_bind_iff]
  simp only [Section.required_bind_iff, pure_inj]
  constructor
  · rintro ⟨members, rfl, hkeys, target, ht, name, hn, description, hd, rfl⟩
    exact ⟨⟨target, name, description⟩, rfl, members, rfl, hkeys, ht, hn, hd⟩
  · rintro ⟨s, rfl, members, rfl, hkeys, ht, hn, hd⟩
    exact ⟨members, rfl, hkeys, s.target, ht, s.name, hn, s.description, hd, rfl⟩

theorem reads_readOutput : Reads readOutput (Just IsOutput) := by
  intro path v x
  rw [readOutput, mapping_bind_iff]
  simp only [Section.required_eq_pure_iff]
  constructor
  · rintro ⟨members, rfl, hkeys, target, rfl, ht⟩
    exact ⟨target, rfl, members, rfl, hkeys, ht⟩
  · rintro ⟨target, rfl, members, rfl, hkeys, ht⟩
    exact ⟨members, rfl, hkeys, target, rfl, ht⟩

theorem reads_readDocs : Reads readDocs (Just IsDoc) := by
  intro path v x
  rw [readDocs, mapping_bind_iff]
  simp only [Section.required_bind_iff, pure_inj]
  constructor
  · rintro ⟨members, rfl, hkeys, target, ht, description, hd, rfl⟩
    exact ⟨⟨target, description⟩, rfl, members, rfl, hkeys, ht, hd⟩
  · rintro ⟨d, rfl, members, rfl, hkeys, ht, hd⟩
    exact ⟨members, rfl, hkeys, d.target, ht, d.description, hd, rfl⟩

theorem reads_readPrompt : Reads readPrompt (Just IsPrompt) := by
  intro path v x
  rw [readPrompt, mapping_bind_iff]
  simp only [Section.required_bind_iff, pure_inj]
  constructor
  · rintro ⟨members, rfl, hkeys, name, hn, prompt, hp, rfl⟩
    exact ⟨⟨name, prompt⟩, rfl, members, rfl, hkeys, hn, hp⟩
  · rintro ⟨p, rfl, members, rfl, hkeys, hn, hp⟩
    exact ⟨members, rfl, hkeys, p.name, hn, p.prompt, hp, rfl⟩

theorem reads_readApiEntry : Reads readApiEntry (Just IsApiEntry) := by
  intro path v x
  unfold readApiEntry
  split
  · rw [reads_nonEmptyString.bind_iff]
    simp only [pure_inj]
    constructor
    · rintro ⟨name, hname, rfl⟩
      exact ⟨_, rfl, .name hname⟩
    · rintro ⟨_, rfl, hname | ⟨_, h, _⟩⟩
      · exact ⟨_, hname, rfl⟩
      · cases h
  · rename_i hstring
    rw [mapping_bind_iff]
    simp only [Section.required_bind_iff, Section.optional_bind_iff reads_stringList, pure_inj]
    constructor
    · rintro ⟨members, hv, hkeys, name, hname, visibilities, hvisibilities, rfl⟩
      exact ⟨_, rfl, .mapping ⟨members, hv, hkeys, hname, hvisibilities⟩⟩
    · rintro ⟨_, rfl, ⟨h, _⟩ | ⟨members, hv, hkeys, hname, hvisibilities⟩⟩
      · exact absurd h (hstring _)
      · exact ⟨members, hv, hkeys, _, hname, _, hvisibilities, rfl⟩

theorem readExampleSource_eq_pure_iff {s : Section} {x : Option ExampleSource} :
    readExampleSource s = pure x ↔ ∃ source, x = some source ∧ HasSource s.members source := by
  unfold readExampleSource
  split
  · rename_i hclass hfile
    rw [Section.required_bind_iff]
    simp only [pure_inj]
    constructor
    · rintro ⟨name, hname, rfl⟩
      exact ⟨_, rfl, .className hname hfile⟩
    · rintro ⟨_, rfl, hname | ⟨_, hother⟩⟩
      · exact ⟨_, hname, rfl⟩
      · exact nomatch hclass ▸ hother
  · rename_i hclass hfile
    rw [Section.required_bind_iff]
    simp only [pure_inj]
    constructor
    · rintro ⟨reference, hreference, rfl⟩
      exact ⟨_, rfl, .file hreference hclass⟩
    · rintro ⟨_, rfl, ⟨_, hother⟩ | hreference⟩
      · exact nomatch hfile ▸ hother
      · exact ⟨_, hreference, rfl⟩
  · rename_i hclass hfile
    refine ⟨fun h => absurd h complain_ne_pure, ?_⟩
    rintro ⟨_, rfl, ⟨_, hother⟩ | ⟨_, hother⟩⟩
    · exact nomatch hfile ▸ hother
    · exact nomatch hclass ▸ hother
  · rename_i hclass hfile
    refine ⟨fun h => absurd h complain_ne_pure, ?_⟩
    rintro ⟨_, rfl, ⟨⟨_, h, _⟩, _⟩ | ⟨⟨_, h, _⟩, _⟩⟩
    · exact nomatch hclass ▸ h
    · exact nomatch hfile ▸ h

theorem reads_readExample : Reads readExample (Just IsExample) := by
  intro path v x
  unfold readExample
  split
  · rw [reads_nonEmptyString.bind_iff]
    simp only [pure_inj]
    constructor
    · rintro ⟨name, hname, rfl⟩
      exact ⟨_, rfl, .name hname⟩
    · rintro ⟨_, rfl, hname | ⟨_, h, _⟩⟩
      · exact ⟨_, hname, rfl⟩
      · cases h
  · rename_i hstring
    rw [mapping_bind_iff]
    simp only [bind_eq_pure_iff, readExampleSource_eq_pure_iff,
      Section.optional_eq_pure_iff reads_stringList, pure_inj]
    constructor
    · rintro ⟨members, hv, hkeys, _, ⟨source, rfl, hsource⟩, contains, hcontains, rfl⟩
      exact ⟨_, rfl, .mapping ⟨members, hv, hkeys, hsource, hcontains⟩⟩
    · rintro ⟨_, rfl, ⟨h, _⟩ | ⟨members, hv, hkeys, hsource, hcontains⟩⟩
      · exact absurd h (hstring _)
      · exact ⟨members, hv, hkeys, _, ⟨_, rfl, hsource⟩, _, hcontains, rfl⟩

/-! ## All directives -/

/-- What the mapping of a template says. -/
structure Spec.Declared (data : List (String × Json)) (spec : Spec) : Prop where
  main : Declares data "main" false IsFlag spec.main
  priority : ∃ p, Declares data "metadata" default IsMetadata p ∧
    spec.priority = if spec.main then .main else p
  literal : Declares data "macros" false IsMacros spec.literal
  api : Declares data "api" [] (ListOf IsApiEntry) spec.api
  examples : Declares data "examples" [] (ListOf IsExample) spec.examples
  skill : Declares data "skill" none (Just IsSkill) spec.skill
  output : Declares data "output" none (Just IsOutput) spec.output
  docs : Declares data "docs" none (Just IsDoc) spec.docs
  commands : Declares data "commands" [] (ListOf IsPrompt) spec.commands

/-- Directives are read where all of them say something, and nothing that they say is lost. -/
theorem Spec.read_eq_ok_iff {data : List (String × Json)} {spec : Spec} :
    Spec.read data = .ok spec ↔ spec.Declared data := by
  rw [Spec.read, result_eq_ok_iff, Spec.check]
  simp only [Section.optional_bind_iff reads_readMetadata, Section.optional_bind_iff reads_readFlag,
    Section.optional_bind_iff reads_readMacros, Section.optional_bind_iff reads_readApiEntry.eachItem,
    Section.optional_bind_iff reads_readExample.eachItem, Section.optional_bind_iff reads_readSkill,
    Section.optional_bind_iff reads_readOutput, Section.optional_bind_iff reads_readDocs,
    Section.optional_bind_iff reads_readPrompt.eachItem, pure_inj]
  constructor
  · rintro ⟨p, hp, main, hmain, literal, hliteral, api, hapi, examples, hexamples, skill, hskill,
      output, houtput, docs, hdocs, commands, hcommands, rfl⟩
    exact ⟨hmain, ⟨p, hp, rfl⟩, hliteral, hapi, hexamples, hskill, houtput, hdocs, hcommands⟩
  · obtain ⟨main, priority, literal, api, examples, skill, output, docs, commands⟩ := spec
    rintro ⟨hmain, ⟨p, hp, hpriority⟩, hliteral, hapi, hexamples, hskill, houtput, hdocs, hcommands⟩
    refine ⟨p, hp, main, hmain, literal, hliteral, api, hapi, examples, hexamples, skill, hskill,
      output, houtput, docs, hdocs, commands, hcommands, ?_⟩
    dsimp only at hpriority
    rw [hpriority]

theorem exists_rank_of_isMetadata {v : Json} {p : Priority} (h : IsMetadata v p) :
    ∃ rank, p = .ranked rank := by
  obtain ⟨members, -, -, hp⟩ := h
  cases hp with
  | absent => exact ⟨5, rfl⟩
  | given _ hrank =>
    obtain ⟨rank, -, -, rfl⟩ := hrank
    exact ⟨rank, rfl⟩

/-- Directives give the main priority exactly if they are those of a main template. -/
theorem Spec.Declared.main_iff {data : List (String × Json)} {spec : Spec}
    (h : spec.Declared data) : spec.main = true ↔ spec.priority = .main := by
  obtain ⟨p, hp, hpriority⟩ := h.priority
  obtain ⟨rank, rfl⟩ : ∃ rank, p = .ranked rank := by
    cases hp with
    | absent => exact ⟨5, rfl⟩
    | given _ hmetadata => exact exists_rank_of_isMetadata hmetadata
  rw [hpriority]
  cases spec.main <;> simp

/-! ## All faults -/

/-- The directives as they are checked, one after the other: what is wrong with a value of each. -/
def directives : List (String × (String → Json → List Violation)) :=
  [("metadata", fun path v => (readMetadata path v).violations),
    ("main", fun path v => (readFlag path v).violations),
    ("macros", fun path v => (readMacros path v).violations),
    ("api", fun path v => (eachItem path readApiEntry v).violations),
    ("examples", fun path v => (eachItem path readExample v).violations),
    ("skill", fun path v => (readSkill path v).violations),
    ("output", fun path v => (readOutput path v).violations),
    ("docs", fun path v => (readDocs path v).violations),
    ("commands", fun path v => (eachItem path readPrompt v).violations)]

def directiveKeys : List String :=
  ["metadata", "main", "macros", "api", "examples", "skill", "output", "docs", "commands"]

/-- The part of a mapping with one key. -/
def only (key : String) (data : List (String × Json)) : List (String × Json) :=
  data.filter (·.1 == key)

theorem get?_only (key other : String) (data : List (String × Json)) :
    Json.get? other (only key data) = if key = other then Json.get? other data else none := by
  induction data with
  | nil => exact (ite_self none).symm
  | cons m data ih =>
    rw [only, List.filter_cons, ← only, Json.get?]
    by_cases hm : m.1 = key
    · rw [if_pos (beq_iff_eq.2 hm), Json.get?, ih, hm]
      by_cases hkey : key = other <;> simp only [hkey, if_true, if_false]
    · rw [if_neg (mt beq_iff_eq.1 hm), ih]
      by_cases hkey : key = other
      · rw [if_pos hkey, if_pos hkey, if_neg fun h => hm (h.trans hkey.symm)]
      · rw [if_neg hkey, if_neg hkey]

/-- What is wrong with a directive of a mapping. -/
def faultsOf (data : List (String × Json))
    (directive : String × (String → Json → List Violation)) : List Violation :=
  ((Json.get? directive.1 data).map (directive.2 directive.1)).getD []

theorem violations_optional {α : Type} {data : List (String × Json)} {key : String} {default : α}
    {read : String → Json → Checked α} :
    (Section.optional ⟨"", data⟩ key default read).violations =
      faultsOf data (key, fun path v => (read path v).violations) := by
  unfold Section.optional faultsOf
  dsimp only
  split <;> rename_i h <;> rw [h] <;> rfl

theorem Spec.violations_check (data : List (String × Json)) :
    (Spec.check data).violations = directives.flatMap (faultsOf data) := by
  simp [Spec.check, directives, violations_optional, List.flatMap_cons]

theorem faultsOf_only (key : String) (data : List (String × Json))
    (d : String × (String → Json → List Violation)) :
    faultsOf (only key data) d = if key = d.1 then faultsOf data d else [] := by
  rw [faultsOf, get?_only]
  split
  · rfl
  · rfl

/-- Of directives with different keys only one has faults in the part of a mapping with one key. -/
theorem flatMap_faultsOf_only {ds : List (String × (String → Json → List Violation))}
    (hkeys : (ds.map (·.1)).Nodup) {d : String × (String → Json → List Violation)} (hd : d ∈ ds)
    (data : List (String × Json)) : ds.flatMap (faultsOf (only d.1 data)) = faultsOf data d := by
  induction ds with
  | nil => cases hd
  | cons e ds ih =>
    rw [List.map_cons, List.nodup_cons] at hkeys
    rw [List.flatMap_cons, faultsOf_only]
    rcases List.mem_cons.1 hd with rfl | hd
    · have hrest : ds.flatMap (faultsOf (only d.1 data)) = [] := by
        rw [List.flatMap_eq_nil_iff]
        intro e he
        exact (faultsOf_only _ _ _).trans (if_neg fun h => hkeys.1 (List.mem_map.2 ⟨e, he, h.symm⟩))
      rw [if_pos rfl, hrest, List.append_nil]
    · have hne : d.1 ≠ e.1 := fun h => hkeys.1 (h ▸ List.mem_map_of_mem hd)
      rw [if_neg hne, List.nil_append, ih hkeys.2 hd]

/-- The faults of a mapping are those of its directives, each checked alone. -/
theorem Spec.violations_check_eq (data : List (String × Json)) :
    (Spec.check data).violations =
      directiveKeys.flatMap fun key => (Spec.check (only key data)).violations := by
  have hkeys : directives.map (·.1) = directiveKeys := rfl
  rw [← hkeys, List.flatMap_map, violations_check]
  refine List.flatMap_congr fun d hd => ?_
  rw [violations_check, flatMap_faultsOf_only (hkeys ▸ by decide) hd]

/-- Keys that are no directives do not count. -/
theorem Spec.check_congr {data other : List (String × Json)}
    (h : ∀ key ∈ directiveKeys, Json.get? key other = Json.get? key data) :
    Spec.check other = Spec.check data := by
  simp only [directiveKeys, List.forall_mem_cons] at h
  simp only [Spec.check, Section.optional, h]

/-- A mapping is read where no directive has a fault, and then nothing that it says is lost. All
faults are told otherwise, directive by directive, and nothing else of the mapping counts. -/
theorem Spec.read_of_mapping (data : List (String × Json)) :
    (∀ vs, Spec.read data = .error vs ↔ vs ≠ [] ∧ (Spec.check data).violations = vs) ∧
    (Spec.check data).violations =
      (directiveKeys.flatMap fun key => (Spec.check (only key data)).violations) ∧
    (∀ other, (∀ key ∈ directiveKeys, Json.get? key other = Json.get? key data) →
      Spec.check other = Spec.check data) ∧
    ∀ spec, Spec.read data = .ok spec ↔ spec.Declared data :=
  ⟨fun _ => result_eq_error_iff, Spec.violations_check_eq data, fun _ => Spec.check_congr,
    fun _ => Spec.read_eq_ok_iff⟩

end AgentDocs.Template
