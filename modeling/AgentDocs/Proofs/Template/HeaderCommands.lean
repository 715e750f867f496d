import AgentDocs.Proofs.Effect
import AgentDocs.Template.HeaderTargets

/-! # Commands of headers

One pass over the headers keeps commands, targets and prompts apart, each in its own order. What
becomes of them depends on these three lists only: targets need exactly one prompt, which all of them
share, and without targets a prompt has the name of the template for its target. -/
namespace AgentDocs.Template
open Markup Text

/-! ## Commands in one header -/

theorem dashes_infix_cons_iff {c : Char} {cs : List Char} :
    ['-', '-'] <:+: c :: cs ↔ (c = '-' ∧ cs.head? = some '-') ∨ ['-', '-'] <:+: cs := by
  rw [List.infix_cons_iff]
  refine or_congr_left ?_
  cases cs with
  | nil => simp
  | cons d cs => simp [List.cons_prefix_cons, eq_comm]

theorem splitDashes_eq_none_iff {cs : List Char} :
    splitDashes cs = none ↔ ¬ ['-', '-'] <:+: cs := by
  fun_induction splitDashes cs with
  | case1 rest => simp [dashes_infix_cons_iff]
  | case2 c rest hdashes ih =>
    have hfirst : ¬ (c = '-' ∧ rest.head? = some '-') := fun ⟨hc, hrest⟩ =>
      (List.head?_eq_some_iff.1 hrest).elim fun tail htail => hdashes tail hc htail
    rw [Option.map_eq_none_iff, ih, dashes_infix_cons_iff, or_iff_right hfirst]
  | case3 => simp

theorem head?_append_dash (before tail : List Char) :
    (before ++ '-' :: tail).head? = (before ++ ['-']).head? := by
  simp [List.head?_append]

theorem splitDashes_append {before : List Char} (h : ¬ ['-', '-'] <:+: before ++ ['-'])
    (behind : List Char) : splitDashes (before ++ '-' :: '-' :: behind) = some (before, behind) := by
  induction before with
  | nil => rfl
  | cons c before ih =>
    rw [List.cons_append, dashes_infix_cons_iff, not_or] at h
    rw [List.cons_append, splitDashes, ih h.2]
    · rfl
    · intro tail hc htail
      refine h.1 ⟨hc, ?_⟩
      rw [← head?_append_dash before ('-' :: behind), htail]
      rfl

theorem eq_of_splitDashes {cs before behind : List Char} (h : splitDashes cs = some (before, behind)) :
    cs = before ++ '-' :: '-' :: behind ∧ ¬ ['-', '-'] <:+: before ++ ['-'] := by
  fun_induction splitDashes cs generalizing before with
  | case1 rest =>
    cases h
    exact ⟨rfl, by simp [dashes_infix_cons_iff]⟩
  | case2 c rest hdashes ih =>
    obtain ⟨⟨before, behind⟩, hrest, heq⟩ := Option.map_eq_some_iff.1 h
    cases heq
    obtain ⟨rfl, hfirst⟩ := ih hrest
    refine ⟨rfl, ?_⟩
    rw [List.cons_append, dashes_infix_cons_iff, not_or, ← head?_append_dash before ('-' :: behind)]
    refine ⟨fun ⟨hc, hhead⟩ => ?_, hfirst⟩
    obtain ⟨tail, htail⟩ := List.head?_eq_some_iff.1 hhead
    exact hdashes tail hc htail
  | case3 => cases h

/-- The command that a value declares: what stands in front of its first two dashes, and what stands
behind them, trimmed. -/
inductive IsInline (value : String) : HeaderCommand → Prop
  | cut {before behind : List Char} : value.toList = before ++ '-' :: '-' :: behind →
      ¬ ['-', '-'] <:+: before ++ ['-'] →
      IsInline value ⟨String.ofList (trim before), String.ofList (trim behind)⟩

theorem inlineCommand_eq_ok_iff {value : String} {c : HeaderCommand} :
    inlineCommand value = .ok c ↔ IsInline value c := by
  constructor
  · intro h
    unfold inlineCommand at h
    split at h
    · rename_i hsplit
      cases h
      exact .cut (eq_of_splitDashes hsplit).1 (eq_of_splitDashes hsplit).2
    · cases h
  · rintro ⟨htext, hfirst⟩
    rw [inlineCommand, htext, splitDashes_append hfirst]

theorem exists_inlineCommand_error_iff {value : String} :
    (∃ e, inlineCommand value = .error e) ↔ ¬ ['-', '-'] <:+: value.toList := by
  rw [← splitDashes_eq_none_iff, inlineCommand]
  cases splitDashes value.toList <;> simp

/-! ## One pass -/

theorem values_nil (name : String) : values name [] = [] := rfl

theorem values_cons (name : String) (h : Header) (headers : List Header) :
    values name (h :: headers)
      = if h.name == name.toList then String.ofList h.value :: values name headers
        else values name headers := by
  rw [values, valuesOf, List.filter_cons]
  split <;> rfl

/-- One header adds what it says to the list of its kind. -/
theorem CommandHeaders.add_eq (found : CommandHeaders) (h : Header) :
    found.add h = (do
      let commands ← (values commandName [h]).mapM inlineCommand
      return ⟨found.commands ++ commands, found.targets ++ values commandTargetName [h],
        found.prompts ++ values commandPromptName [h]⟩) := by
  simp only [values_cons, values_nil, CommandHeaders.add]
  by_cases htarget : h.name == commandTargetName.toList
  · have hprompt : (h.name == commandPromptName.toList) = false := by
      rw [beq_iff_eq.1 htarget]
      decide
    have hcommand : (h.name == commandName.toList) = false := by
      rw [beq_iff_eq.1 htarget]
      decide
    simp [htarget, hprompt, hcommand]
  · by_cases hprompt : h.name == commandPromptName.toList
    · have hcommand : (h.name == commandName.toList) = false := by
        rw [beq_iff_eq.1 hprompt]
        decide
      simp [htarget, hprompt, hcommand]
    · by_cases hcommand : h.name == commandName.toList <;> simp [htarget, hprompt, hcommand]

/-- What a pass adds: each list goes on with the headers of its kind. -/
theorem foldlM_add (headers : List Header) (found : CommandHeaders) :
    headers.foldlM CommandHeaders.add found = (do
      let commands ← (values commandName headers).mapM inlineCommand
      return ⟨found.commands ++ commands, found.targets ++ values commandTargetName headers,
        found.prompts ++ values commandPromptName headers⟩) := by
  induction headers generalizing found with
  | nil => simp [values_nil]
  | cons h headers ih =>
    have happend : ∀ name, values name (h :: headers) = values name [h] ++ values name headers := by
      intro name
      rw [values_cons, values_cons]
      split <;> rfl
    rw [List.foldlM_cons, CommandHeaders.add_eq]
    simp only [ih, happend, List.mapM_append, bind_assoc, pure_bind, List.append_assoc]

theorem headerCommands_eq (headers : List Header) (fileName : String) :
    headerCommands headers fileName = (do
      let commands ← (values commandName headers).mapM inlineCommand
      CommandHeaders.all ⟨commands, values commandTargetName headers,
        values commandPromptName headers⟩ fileName) := by
  rw [headerCommands, foldlM_add]
  simp only [bind_assoc, pure_bind, List.nil_append]

/-! ## Targets and prompts -/

/-- The commands of targets and prompts that stand on their own. -/
inductive IsShared (fileName : String) : List String → List String → List HeaderCommand → Prop
  | none : IsShared fileName [] [] []
  | named (prompt : String) : IsShared fileName [] [prompt] [⟨fileName, prompt⟩]
  | targets (target : String) (targets : List String) (prompt : String) :
      IsShared fileName (target :: targets) [prompt] ((target :: targets).map (⟨·, prompt⟩))

theorem CommandHeaders.all_eq_ok_iff {found : CommandHeaders} {fileName : String}
    {commands : List HeaderCommand} :
    found.all fileName = .ok commands ↔ ∃ shared, commands = found.commands ++ shared ∧
      IsShared fileName found.targets found.prompts shared := by
  obtain ⟨inline, targets, prompts⟩ := found
  constructor
  · intro h
    match targets, prompts with
    | [], [] => exact ⟨[], by cases h; simp, .none⟩
    | [], [prompt] => exact ⟨_, by cases h; rfl, .named prompt⟩
    | target :: targets, [prompt] => exact ⟨_, by cases h; rfl, .targets target targets prompt⟩
    | _ :: _, [] => cases h
    | _, _ :: _ :: _ => cases h
  · rintro ⟨shared, rfl, hshared⟩
    cases hshared with
    | none => simp [CommandHeaders.all, pure, Except.pure]
    | named prompt => rfl
    | targets target targets prompt => rfl

theorem CommandHeaders.exists_all_error_iff {found : CommandHeaders} {fileName : String} :
    (∃ e, found.all fileName = .error e) ↔
      1 < found.prompts.length ∨ (found.targets ≠ [] ∧ found.prompts = []) := by
  obtain ⟨inline, targets, prompts⟩ := found
  match targets, prompts with
  | [], [] => simp [CommandHeaders.all, pure, Except.pure]
  | [], [prompt] => simp [CommandHeaders.all, pure, Except.pure]
  | target :: targets, [prompt] => simp [CommandHeaders.all, pure, Except.pure]
  | _ :: _, [] => simp [CommandHeaders.all]
  | _, _ :: _ :: _ => simp [CommandHeaders.all]

/-- Reading the commands fails if one is without a prompt, if there is more than one prompt on its own,
or if there are targets and no prompt, and in no other case. -/
theorem exists_headerCommands_error_iff {headers : List Header} {fileName : String} :
    (∃ e, headerCommands headers fileName = .error e) ↔
      (∃ value ∈ values commandName headers, ¬ ['-', '-'] <:+: value.toList) ∨
      1 < (values commandPromptName headers).length ∨
      (values commandTargetName headers ≠ [] ∧ values commandPromptName headers = []) := by
  simp only [← exists_inlineCommand_error_iff]
  rw [headerCommands_eq, ← Except.exists_mapM_error_iff]
  cases (values commandName headers).mapM inlineCommand with
  | error e => simp [bind, Except.bind]
  | ok commands =>
    rw [or_iff_right fun ⟨_, h⟩ => nomatch h]
    exact CommandHeaders.exists_all_error_iff

theorem headerCommands_eq_ok_iff {headers : List Header} {fileName : String}
    {commands : List HeaderCommand} :
    headerCommands headers fileName = .ok commands ↔ ∃ inline shared,
      commands = inline ++ shared ∧ List.Forall₂ IsInline (values commandName headers) inline ∧
      IsShared fileName (values commandTargetName headers) (values commandPromptName headers)
        shared := by
  have hinline : ∀ inline, (values commandName headers).mapM inlineCommand = .ok inline ↔
      List.Forall₂ IsInline (values commandName headers) inline := fun inline => by
    rw [Except.mapM_eq_ok_iff]
    simp only [inlineCommand_eq_ok_iff]
  rw [headerCommands_eq]
  constructor
  · intro h
    obtain ⟨inline, hcommands, h⟩ := Except.exists_of_bind_ok h
    obtain ⟨shared, rfl, hshared⟩ := CommandHeaders.all_eq_ok_iff.1 h
    exact ⟨inline, shared, rfl, (hinline inline).1 hcommands, hshared⟩
  · rintro ⟨inline, shared, rfl, hcommands, hshared⟩
    rw [(hinline inline).2 hcommands]
    exact CommandHeaders.all_eq_ok_iff.2 ⟨shared, rfl, hshared⟩

/-- The headers of each kind decide, for any headers: when there are no commands, and which there are
otherwise. How the kinds are mixed with one another and with other headers does not matter. -/
theorem commands_of_headers (headers : List Header) (fileName : String) :
    ((∃ e, headerCommands headers fileName = .error e) ↔
      (∃ value ∈ values commandName headers, ¬ ['-', '-'] <:+: value.toList) ∨
      1 < (values commandPromptName headers).length ∨
      (values commandTargetName headers ≠ [] ∧ values commandPromptName headers = [])) ∧
    (∀ commands, headerCommands headers fileName = .ok commands ↔ ∃ inline shared,
      commands = inline ++ shared ∧ List.Forall₂ IsInline (values commandName headers) inline ∧
      IsShared fileName (values commandTargetName headers) (values commandPromptName headers)
        shared) ∧
    ∀ others, (∀ name ∈ [commandName, commandTargetName, commandPromptName],
      values name others = values name headers) →
      headerCommands others fileName = headerCommands headers fileName := by
  refine ⟨exists_headerCommands_error_iff, fun _ => headerCommands_eq_ok_iff, fun others hsame => ?_⟩
  rw [headerCommands_eq, headerCommands_eq, hsame commandName (by simp),
    hsame commandTargetName (by simp), hsame commandPromptName (by simp)]

/-- Two targets around the prompt that they share, among other headers. -/
def mixedHeaders : List Header :=
  [("claude-command-target", "a.md"), ("title", "x"), ("claude-command-prompt", "Do it"),
    ("claude-command", "review.md -- Review"), ("claude-command-target", "b.md")].map
      fun h => ⟨h.1.toList, h.2.toList⟩

/-- The same headers, kind by kind. -/
def sortedHeaders : List Header :=
  [("claude-command", "review.md -- Review"), ("claude-command-prompt", "Do it"),
    ("claude-command-target", "a.md"), ("claude-command-target", "b.md")].map
      fun h => ⟨h.1.toList, h.2.toList⟩

theorem commands_of_mixedHeaders :
    headerCommands mixedHeaders "t.md" = headerCommands sortedHeaders "t.md" ∧
      headerCommands sortedHeaders "t.md"
        = .ok [⟨"review.md", "Review"⟩, ⟨"a.md", "Do it"⟩, ⟨"b.md", "Do it"⟩] ∧
      ∃ e, headerCommands (mixedHeaders.take 2) "t.md" = .error e :=
  ⟨(commands_of_headers sortedHeaders "t.md").2.2 mixedHeaders (by decide +kernel),
    by decide +kernel,
    (commands_of_headers (mixedHeaders.take 2) "t.md").1.2 (.inr (.inr (by decide +kernel)))⟩

end AgentDocs.Template
