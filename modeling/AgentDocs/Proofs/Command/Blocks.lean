import AgentDocs.Proofs.Render.Dispatches
import AgentDocs.Proofs.Text.Fence
import AgentDocs.Template.Content

/-! # Blocks of code

Commands write code between fences of three backticks, the sections that a template declares write
it between fences that are longer than every run of backticks in the code. The blocks are the same
unless the code has three backticks in a row; then a line of the code may end the block of a
command. -/
namespace AgentDocs
open Effect Markup Store Template

/-! ## Two kinds of fences -/

theorem Command.toList_fenced (language code : String) :
    (fenced language code).toList = Text.block 3 language.toList code.toList := by
  simp [fenced, Text.block, Text.trimmed, Text.onChars, List.replicate]

/-- Both kinds of blocks are the same where no three backticks are in a row. -/
theorem fenced_eq_iff (language code : String) :
    Command.fenced language code = Text.fenced language code
      ↔ ¬['\x60', '\x60', '\x60'] <:+: code.toList := by
  have hrun : ['\x60', '\x60', '\x60'] <:+: code.toList ↔ 3 ≤ Text.longestRun '\x60' code.toList :=
    Text.replicate_infix_iff (n := 3)
  rw [hrun, Nat.not_le, ← String.toList_inj, Command.toList_fenced, Text.toList_fenced]
  constructor
  · intro heq
    have hlength := congrArg List.length heq
    simp only [Text.block, Text.fence, List.length_append, List.length_cons,
      List.length_replicate] at hlength
    omega
  · intro hshort
    have hfence : (Text.fence code.toList).length = 3 := by
      rw [Text.length_fence]
      omega
    rw [hfence]

/-- All of the code is shown between longer fences, and between those of a command the lines up to the
first that is a fence. -/
theorem shownLines_fenced (language code : String) (hline : '\n' ∉ language.toList)
    (htick : '\x60' ∉ language.toList) :
    let lines := Text.split '\n' (Text.trim code.toList)
    Text.shownLines (Text.fenced language code).toList = lines ∧
      Text.shownLines (Command.fenced language code).toList
        = lines.takeWhile fun line => !Text.endsFence 3 line := by
  intro lines
  have hfree : ∀ line ∈ lines, Text.endsFence (Text.fence code.toList).length line = false :=
    fun line hmem => Text.endsFence_fence (Text.infix_of_mem_lines hmem)
  rw [Text.toList_fenced, Text.shownLines_block hline htick, List.takeWhile_eq_self_iff,
    Command.toList_fenced, Text.shownLines_block hline htick]
  exact ⟨fun line hmem => by rw [hfree line hmem]; rfl, rfl⟩

/-! ## What is written in a block -/

namespace Renderer
variable {r : Renderer} {inner : Job → Rendering String} {classes : ClassIndex}

/-- A command with as many arguments as it takes goes on. -/
theorem follow_expected {α : Type} {command : String} {arguments : List String} {least most : Nat}
    (h : least ≤ arguments.length ∧ arguments.length ≤ most) (script : CommandScript α)
    (s : Session) :
    follow r inner
        (Script.ofExcept (expectArguments command arguments least most) >>= fun _ => script) s
      = follow r inner script s := by
  rw [expectArguments, if_pos h]
  rfl

theorem follow_describeClass {name code : String} {visibilities : Option String}
    (h : classes.signature name (.ofVisibility (Visibility.ofText (visibilities.getD ""))) = .ok code)
    (s : Session) :
    follow r inner (Command.describeClass classes name visibilities) s
      = (.ok ("Code snippet of **" ++ name ++ "**:\n" ++ Command.fenced classes.language code), s) := by
  rw [Command.describeClass, CommandScript.ofClass, h]
  rfl

/-- A text that is not readable leaves the store as a text that is. -/
theorem readText_store (p : Path) (store : Store) :
    (readText p store).2 = (Store.read p store).2 := by
  rw [readText, bind_apply]
  cases (Store.read p store).1 <;> rfl

theorem follow_readText (p : Path) (s : Session) :
    follow r inner (CommandScript.readText p) s
      = ((readText p s.store).1.mapError .ofStore, { s with store := (readText p s.store).2 }) := by
  have hasked : follow r inner (CommandScript.readText p) s
      = follow r inner (Script.bind (Script.ofExcept ((Store.read p s.store).1.mapError .ofStore))
          fun content => Script.ofExcept ((content.asText p).mapError .ofStore))
        { s with store := (Store.read p s.store).2 } := rfl
  rw [hasked, readText_store, readText_apply]
  cases (Store.read p s.store).1 with
  | error e => rfl
  | ok content => exact follow_ofExcept _ _

theorem follow_classSource {name code : String} {source : Path} {s : Session} {store : Store}
    (hsource : classes.sourceFile name = .ok source)
    (hread : readText source s.store = (.ok code, store)) :
    follow r inner (Command.classSource classes name) s = (.ok code, { s with store }) := by
  have hscript : Command.classSource classes name = CommandScript.readText source := by
    rw [Command.classSource, CommandScript.ofClass, hsource]
    rfl
  rw [hscript, follow_readText, hread]
  rfl

/-! ## The blocks that snippets stand for -/

section Snippets
variable {scope : Scope} {path : Path} {item : Snippet} {name code : String} {s : Session}

theorem dispatch_dump {visibilities : List String} (hname : item.name = "dump")
    (harguments : item.arguments = name :: visibilities) (hlength : visibilities.length ≤ 1)
    (hcode : classes.signature name
      (.ofVisibility (Visibility.ofText (visibilities.getD 0 ""))) = .ok code) :
    follow r inner (dispatch (.builtin classes) scope path item) s
      = (.ok (some ("Code snippet of **" ++ name ++ "**:\n"
          ++ Command.fenced classes.language code).toList), s) := by
  have hfind : (Registry.builtin classes).find? item.name = some (Command.dump classes) := by
    rw [hname]
    rfl
  have hfollow : follow r inner ((Command.dump classes).invoke scope item.arguments) s
      = (.ok ("Code snippet of **" ++ name ++ "**:\n" ++ Command.fenced classes.language code), s) := by
    rw [harguments]
    refine (follow_expected ⟨Nat.succ_le_succ (Nat.zero_le _), Nat.succ_le_succ hlength⟩ _ s).trans ?_
    exact follow_describeClass (by cases visibilities <;> exact hcode) s
  rw [follow_dispatch_of_find? hfind, hfollow]
  rfl

/-- The section at the end of the document has the same block. -/
theorem dispatch_context {visibilities : List String} (hname : item.name = "@context")
    (harguments : item.arguments = name :: visibilities) (hlength : visibilities.length ≤ 1)
    (hcode : classes.signature name
      (.ofVisibility (Visibility.ofText (visibilities.getD 0 ""))) = .ok code) :
    follow r inner (dispatch (.builtin classes) scope path item) s
      = (.ok (some []), s.keep "@context" ⟨name, "Code snippet of **" ++ name ++ "**:\n"
          ++ Command.fenced classes.language code⟩) := by
  have hfind : (Registry.builtin classes).find? item.name
      = some (Command.context classes Command.contextDescription) := by
    rw [hname]
    rfl
  have hfollow : follow r inner
      ((Command.context classes Command.contextDescription).invoke scope item.arguments) s
      = (.ok "", s.keep "@context" ⟨name, "Code snippet of **" ++ name ++ "**:\n"
          ++ Command.fenced classes.language code⟩) := by
    rw [harguments]
    refine (follow_expected ⟨Nat.succ_le_succ (Nat.zero_le _), Nat.succ_le_succ hlength⟩ _ s).trans ?_
    rw [follow_bind]
    exact bind_ok (follow_describeClass (by cases visibilities <;> exact hcode) s)
  rw [follow_dispatch_of_find? hfind, hfollow]
  rfl

theorem dispatch_printCodeBlock {source : Path} {store : Store}
    (hname : item.name = "print-code-block") (harguments : item.arguments = [name])
    (hsource : classes.sourceFile name = .ok source)
    (hread : readText source s.store = (.ok code, store)) :
    follow r inner (dispatch (.builtin classes) scope path item) s
      = (.ok (some (Command.fenced classes.language code).toList), { s with store }) := by
  have hfind : (Registry.builtin classes).find? item.name
      = some (Command.printCodeBlock classes) := by
    rw [hname]
    rfl
  have hfollow : follow r inner ((Command.printCodeBlock classes).invoke scope item.arguments) s
      = (.ok (Command.fenced classes.language code), { s with store }) := by
    rw [harguments]
    refine (follow_expected ⟨Nat.le_refl 1, Nat.le_refl 1⟩ _ s).trans ?_
    rw [follow_bind]
    exact bind_ok (follow_classSource hsource hread)
  rw [follow_dispatch_of_find? hfind, hfollow]
  rfl

end Snippets

/-! ## The blocks of sections -/

theorem classExample_of_readText {name code : String} {source : Path} {store store' : Store}
    {entry : ExampleEntry} (hsource : classes.sourceFile name = .ok source)
    (hread : readText source store = (.ok code, store'))
    (hcontains : ∀ text ∈ entry.contains, Text.contains code text = true) :
    classExample classes entry name store = (.ok (Text.fenced classes.language code), store') := by
  have hsourced : ofExcept ((classes.sourceFile name).mapError Fault.ofClass) store
      = (.ok source, store) := by
    rw [hsource]
    rfl
  have hwrapped : (readText source).wrapError (fun _ => Fault.unreadableClass name) store
      = (.ok code, store') := by
    rw [Task.wrapError, hread]
    rfl
  have hchecked : ofExcept (checkTexts entry code) store' = (.ok (), store') := by
    have hnone : entry.contains.find? (fun text => !Text.contains code text) = none := by
      simpa [List.find?_eq_none] using hcontains
    rw [checkTexts, hnone]
    rfl
  exact (bind_ok hsourced).trans ((bind_ok hwrapped).trans (bind_ok hchecked))

theorem language_of_exampleIn {entry : ExampleEntry} {extension code shown : String}
    (h : exampleIn entry extension code = .ok shown) :
    ∃ language, exampleLanguage? extension = some language ∧ shown = Text.fenced language code := by
  rw [exampleIn] at h
  generalize exampleLanguage? extension = found at h ⊢
  cases found with
  | none => cases h
  | some language =>
    obtain ⟨_, _, h⟩ := Except.exists_of_bind_ok h
    exact ⟨language, rfl, (Except.ok.inj h).symm⟩

/-- The blocks of commands and of sections for the same code. -/
theorem blocks_of_code (classes : ClassIndex) (r : Renderer) (inner : Job → Rendering String)
    (scope : Scope) (path : Path) (span : Span) (s : Session) (name : String) :
    let run (command : String) (arguments : List String) :=
      follow r inner (dispatch (.builtin classes) scope path ⟨command, arguments, span⟩) s
    (∀ (visibilities : List String) (code : String), visibilities.length ≤ 1 →
      let visibility := Visibility.ofText (visibilities.getD 0 "")
      let text := "Code snippet of **" ++ name ++ "**:\n" ++ Command.fenced classes.language code
      classes.signature name (.ofVisibility visibility) = .ok code →
      run "dump" (name :: visibilities) = (.ok (some text.toList), s) ∧
      run "@context" (name :: visibilities) = (.ok (some []), s.keep "@context" ⟨name, text⟩) ∧
      signatureBlock classes ⟨name, visibility⟩ = .ok (Text.fenced classes.language code)) ∧
    (∀ (source : Path) (code : String) (store : Store), classes.sourceFile name = .ok source →
      readText source s.store = (.ok code, store) →
      run "print-code-block" [name]
        = (.ok (some (Command.fenced classes.language code).toList), { s with store }) ∧
      ∀ (root : Path) (entry : ExampleEntry), entry.source = .className name →
        (∀ text ∈ entry.contains, Text.contains code text = true) →
        exampleBlock root classes entry s.store
          = (.ok (Text.fenced classes.language code), store)) ∧
    (∀ (entry : ExampleEntry) (extension code shown : String),
      exampleIn entry extension code = .ok shown →
      ∃ language, exampleLanguage? extension = some language ∧ shown = Text.fenced language code) ∧
    ∀ language code : String,
      (∀ n, List.replicate n '\x60' <:+: code.toList → n < (Text.fence code.toList).length) ∧
      (Command.fenced language code = Text.fenced language code
        ↔ ¬['\x60', '\x60', '\x60'] <:+: code.toList) ∧
      ('\n' ∉ language.toList → '\x60' ∉ language.toList →
        let lines := Text.split '\n' (Text.trim code.toList)
        Text.shownLines (Text.fenced language code).toList = lines ∧
        Text.shownLines (Command.fenced language code).toList
          = lines.takeWhile fun line => !Text.endsFence 3 line) := by
  intro run
  refine ⟨?_, ?_, ?_, ?_⟩
  · intro visibilities code hlength visibility text hcode
    refine ⟨dispatch_dump rfl rfl hlength hcode, dispatch_context rfl rfl hlength hcode, ?_⟩
    rw [signatureBlock, hcode]
    rfl
  · intro source code store hsource hread
    refine ⟨dispatch_printCodeBlock rfl rfl hsource hread, fun root entry hentry hcontains => ?_⟩
    rw [exampleBlock, hentry]
    exact classExample_of_readText hsource hread hcontains
  · exact fun entry extension code shown => language_of_exampleIn
  · exact fun language code => ⟨fun n => Text.lt_length_fence, fenced_eq_iff language code,
      shownLines_fenced language code⟩

/-- A class with an example of its own in fences. -/
def fencedComment : String :=
  "/**\n\x60\x60\x60\n$a->run();\n\x60\x60\x60\n*/\nclass A \x7b\x7d"

def fencedClasses : ClassIndex := .ofTable "php" [("A", ⟨fencedComment, some ⟨"/work/A.php"⟩⟩)]

def fencedSession : Session :=
  .start (.memory (Memory.empty.put ⟨"/work/A.php"⟩ (.text fencedComment)))

def fencedScope : Scope :=
  ⟨⟨⟨⟨"/work/a.md"⟩, "a.md"⟩, [], none, true⟩, ⟨"/work"⟩, ⟨"/work"⟩, ⟨"/work"⟩⟩

theorem blocks_of_fencedComment :
    let r := Renderer.make (.builtin fencedClasses) ⟨"/work"⟩
    let run (command : String) :=
      (follow r (fun _ => pure "") (dispatch (.builtin fencedClasses) fencedScope ⟨"/work/a.md"⟩
        ⟨command, ["A"], ⟨0, 0⟩⟩) fencedSession).1
    let shown := Command.fenced "php" fencedComment
    run "dump" = .ok (some ("Code snippet of **A**:\n" ++ shown).toList) ∧
      run "print-code-block" = .ok (some shown.toList) := by
  intro r run shown
  obtain ⟨hsignature, hsource, -⟩ := blocks_of_code fencedClasses r (fun _ => pure "") fencedScope
    ⟨"/work/a.md"⟩ ⟨0, 0⟩ fencedSession "A"
  have hread : ∃ store, readText ⟨"/work/A.php"⟩ fencedSession.store = (.ok fencedComment, store) :=
    ⟨_, rfl⟩
  obtain ⟨store, hread⟩ := hread
  exact ⟨congrArg Prod.fst (hsignature [] fencedComment (Nat.zero_le _) rfl).1,
    congrArg Prod.fst (hsource ⟨"/work/A.php"⟩ fencedComment store rfl hread).1⟩

/-- Only the longer fences hold the whole class. -/
theorem comment_ends_block :
    let r := Renderer.make (.builtin fencedClasses) ⟨"/work"⟩
    let rendered (content : String) :=
      (r.render fencedScope.template ⟨"/work/a.md"⟩ ⟨"/work"⟩ (some content) fencedSession).1.toOption
    let short := "\x60\x60\x60php\n" ++ fencedComment ++ "\n\x60\x60\x60"
    let long := "\x60\x60\x60\x60php\n" ++ fencedComment ++ "\n\x60\x60\x60\x60"
    rendered "\x7b\x7bdump: A\x7d\x7d" = some ("Code snippet of **A**:\n" ++ short) ∧
      rendered "\x7b\x7bprint-code-block: A\x7d\x7d" = some short ∧
      (signatureBlock fencedClasses ⟨"A", .publicOnly⟩).toOption = some long ∧
      (exampleBlock ⟨"/work"⟩ fencedClasses ⟨.className "A", []⟩ fencedSession.store).1.toOption
        = some long ∧
      short ≠ long ∧ Text.shownLines short.toList = ["/**".toList] ∧
      Text.shownLines long.toList = Text.split '\n' fencedComment.toList := by
  decide +kernel

end Renderer
end AgentDocs
