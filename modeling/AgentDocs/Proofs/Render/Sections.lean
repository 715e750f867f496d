import AgentDocs.Proofs.Render.Flattened
import AgentDocs.Proofs.Render.Placings

/-! # The sections at the end of a document

A document ends with a section for the classes and one for the packages that its text names, with
one entry for each of them: that of the first snippet in the flattened text. Imported documents have
sections of their own, and nothing passes from one document to another. -/
namespace AgentDocs
open Effect Store Session

/-- The first entry of each key, in the order of these. -/
def firstOfEach (entries : List Entry) : List Entry :=
  entries.eraseDupsBy fun e first => e.key == first.key

/-- A text with a section for entries, if there are any. -/
def withSection (heading description separator : String) (entries : List Entry) (text : String) :
    String :=
  if entries.isEmpty then text
  else text ++ "\n\n## " ++ heading ++ "\n" ++ description ++ "\n\n"
    ++ Text.joined separator ((firstOfEach entries).map (·.text))

namespace Command

/-- Entries that were kept from the last one to the first are listed from the first one on. -/
theorem sourceOrder_reverse (entries : List Entry) :
    sourceOrder entries.reverse = (firstOfEach entries).map (·.text) := by
  have hgo : ∀ (rest firsts : List Entry),
      (List.eraseDupsBy.loop (fun e first => e.key == first.key) rest firsts).map (·.text)
        = firsts.reverse.map (·.text) ++ sourceOrder.go (firsts.map (·.key)) rest := by
    intro rest
    induction rest with
    | nil => simp [List.eraseDupsBy.loop, sourceOrder.go]
    | cons e rest ih =>
      intro firsts
      have hseen : (firsts.map (·.key)).contains e.key
          = firsts.any fun first => e.key == first.key := by
        rw [List.contains_eq_any_beq, List.any_map]
        rfl
      rw [List.eraseDupsBy.loop, sourceOrder.go, hseen]
      cases hany : firsts.any fun first => e.key == first.key with
      | true => exact ih firsts
      | false =>
        rw [ih (e :: firsts)]
        simp
  rw [sourceOrder, List.reverse_reverse]
  exact (hgo entries []).symm

theorem addSection_reverse (heading description separator : String) (entries : List Entry)
    (text : String) : addSection heading description separator entries.reverse text
      = withSection heading description separator entries text := by
  unfold addSection withSection
  rw [sourceOrder_reverse, List.isEmpty_reverse]

end Command

namespace Renderer
variable {r : Renderer} {classes : ClassIndex} {others : Registry} {store : Store}

/-- The text of a file with its placeholders replaced, before the commands complete a document. -/
def expansion (r : Renderer) : Nat → Job → Rendering (List Char)
  | 0, job, s => (.error (.tooDeep job.path.normal), s)
  | depth + 1, job, s =>
    match sourceOf job (s.enter job.path.normal) with
    | (.error e, t) => (.error e, t)
    | (.ok text, t) => follow r (renderWithin r depth) (r.scriptOf job text) (r.opened job.mode t)

/-- Whether a document is its expanded text with the sections for its flattened text, completed by
the other commands. -/
def Sectioned (r : Renderer) (classes : ClassIndex) (others : Registry) (store : Store)
    (depth : Nat) (job : Job) (s : Session) (content : String) : Prop :=
  ∃ flattened body t, flattenWithin r store depth job .empty = some flattened ∧
    r.expansion depth job s = (.ok body, t) ∧
    let context := flattened.occurrences.filterMap (entryOfClass? classes)
    let packages := flattened.occurrences.filterMap (entryOfPackage? store)
    let ended := withSection "Documentations" Command.packageDescription "\n" packages
      (withSection "Context" Command.contextDescription "\n\n" context (String.ofList body))
    content = Text.trimmed
      (others.foldl (fun text c => c.finish (t.entriesOf c.name) text) ended)

theorem sectioned_of_renderWithin_ok (hr : r.registry = .builtin classes ++ others)
    (hothers : ∀ c ∈ others, c.KeepsApart) {depth : Nat} {job : Job} (hmode : job.mode = .document)
    {s t : Session} (hs : Reads store s) {content : String}
    (h : renderWithin r depth job s = (.ok content, t)) :
    Sectioned r classes others store depth job s content := by
  obtain ⟨least, text, u, body, v, rfl, hsource, hbody, hcontent, _⟩ := exists_of_renderWithin_ok h
  have henter : Reads store (s.enter job.path.normal) := hs.of_eq rfl rfl
  have hread : Reads store u := henter.steady ((moves_sourceOf job).arrives _ _ _ hsource)
  have hopened : Gathered classes store (r.opened job.mode u) .empty := by
    rw [hmode]
    exact ⟨hread.of_eq rfl rfl, rfl, rfl, rfl⟩
  obtain ⟨flattened, hflattened, hgathered⟩ := flattens_text hr hothers
    (flattensInside hr hothers least) henter hsource hopened hbody
  refine ⟨flattened, body, v, hflattened, ?_, ?_⟩
  · rw [expansion, hsource]
    exact hbody
  · rw [hmode] at hcontent
    refine (Except.ok.inj hcontent).symm.trans (congrArg Text.trimmed ?_)
    rw [hr, List.foldl_append]
    have hbuiltin : List.foldl (fun text c => c.finish (v.entriesOf c.name) text)
        (String.ofList body) (Registry.builtin classes)
          = Command.addSection "Documentations" Command.packageDescription "\n"
            (v.entriesOf "@package")
            (Command.addSection "Context" Command.contextDescription "\n\n"
              (v.entriesOf "@context") (String.ofList body)) := rfl
    rw [hbuiltin, hgathered.context, hgathered.package, Command.addSection_reverse,
      Command.addSection_reverse]

end Renderer

/-! ## Imported documents -/

namespace Renderer
variable {r : Renderer} {classes : ClassIndex} {others : Registry} {store : Store}

/-- All sessions that a rendering goes through read the same store. -/
theorem traced_reads (r : Renderer) (store : Store) :
    Traced r fun s trace t =>
      Reads store s → Reads store t ∧ ∀ m ∈ trace, Reads store m.session where
  append hst htu hs := by
    obtain ⟨ht, htrace⟩ := hst hs
    obtain ⟨hu, hlater⟩ := htu ht
    exact ⟨hu, fun m hm => (List.mem_append.1 hm).elim (htrace m) (hlater m)⟩
  quiet hstore hbodies _ hs := ⟨hs.of_eq hstore hbodies, List.forall_mem_nil _⟩
  request s depth job hs := ⟨hs, List.forall_mem_singleton.2 hs⟩
  source s depth job hs := by
    refine ⟨hs.steady (moves_sourceOf job s), fun m hm => ?_⟩
    unfold sourceTrace at hm
    split at hm
    · cases hm
    · split at hm
      · cases hm
      · exact List.mem_singleton.1 hm ▸ hs
  plain s depth inner a ha hs := by
    refine ⟨?_, List.forall_mem_singleton.2 hs⟩
    cases a with
    | render | importFile => exact ha.elim
    | ask question => exact hs.steady (Within.moves_onStore (moves_answer question) s)
    | keep name e => exact hs.steady (steady_keep s name e)
    | kept | mention | note => exact hs.of_eq rfl rfl
  render s depth job hs := ⟨hs, List.forall_mem_singleton.2 hs⟩
  placed {s t depth template source result} hplace _ hs := by
    have hsteady := moves_placeImport (r := r) source s
    rw [hplace] at hsteady
    exact ⟨hs.steady hsteady, List.forall_mem_singleton.2 hs⟩
  given {s t depth template source target out trace} hplace _ htrace hs := by
    have hsteady := moves_placeImport (r := r) source s
    rw [hplace] at hsteady
    obtain ⟨hout, hinside⟩ := htrace (hs.steady hsteady)
    refine ⟨?_, List.forall_mem_cons.2 ⟨hs, hinside⟩⟩
    obtain ⟨result, u⟩ := out
    cases result <;> exact hout.of_eq rfl rfl

/-- The moment at which a file is placed. -/
theorem exists_of_mem_placings {trace : Trace} {a : Placing} (h : a ∈ trace.placings r) :
    ∃ m ∈ trace, ∃ template t, m.event = .action (.importFile template a.source) ∧
      placeImport r a.source m.session = (.ok (a.target, true), t) ∧
      a.ended = (renderWithin r m.depth (r.importJob template a.source) t).1 := by
  obtain ⟨m, hm, hplacing⟩ := List.mem_filterMap.1 h
  refine ⟨m, hm, ?_⟩
  unfold Moment.placing? at hplacing
  split at hplacing
  · rename_i template source hevent
    split at hplacing
    · rename_i target t hplace
      cases hplacing
      exact ⟨template, t, hevent, hplace, rfl⟩
    · cases hplacing
  · cases hplacing

/-- Every document, and every file that is imported meanwhile, ends with the sections for its own
flattened text: one entry for each class or package, that of the first snippet that names it. -/
theorem sections_of_flattened (r : Renderer) (classes : ClassIndex) (others : Registry)
    (hr : r.registry = .builtin classes ++ others) (hothers : ∀ c ∈ others, c.KeepsApart)
    (store : Store) (known : List (Path × Path)) (calls : List Call) (c : Call) :
    let s := r.after calls ((start store).withTargets known)
    (∀ content, (r.call c s).1 = .ok content →
      r.Sectioned classes others store (depthFor store) c.job s content) ∧
    ∀ a ∈ Trace.placings r (r.callTrace c s), ∀ content, a.ended = .ok content →
      ∃ m ∈ r.callTrace c s, ∃ template t,
        m.event = .action (.importFile template a.source) ∧
        placeImport r a.source m.session = (.ok (a.target, true), t) ∧
        r.Sectioned classes others store m.depth (r.importJob template a.source) t content := by
  intro s
  have hsteady := steady_after (r := r) calls ((start store).withTargets known)
  have hs : Reads store s := ⟨hsteady.store, hsteady.faithful (faithful_start store known)⟩
  refine ⟨fun content hcontent => ?_, fun a ha content hended => ?_⟩
  · rw [call_apply, ← depthFor_congr hs.same] at hcontent
    exact sectioned_of_renderWithin_ok hr hothers rfl hs (Prod.ext hcontent rfl : _ = (_, _))
  · obtain ⟨m, hm, template, t, hevent, hplace, hended'⟩ := exists_of_mem_placings ha
    have hmoment := (((traced_reads r store).callTrace c s) hs).2 m hm
    have hsteady := moves_placeImport (r := r) a.source m.session
    rw [hplace] at hsteady
    exact ⟨m, hm, template, t, hevent, hplace, sectioned_of_renderWithin_ok hr hothers rfl
      (hmoment.steady hsteady) (Prod.ext (hended'.symm.trans hended) rfl : _ = (_, _))⟩

/-- Three classes. -/
def threeClasses : ClassIndex :=
  .ofTable "php" [("A", ⟨"class A", none⟩), ("B", ⟨"class B", none⟩), ("C", ⟨"class C", none⟩)]

/-- Two files that name some of them. -/
def namingClasses : Memory :=
  (Memory.empty.put ⟨"/work/p.md"⟩
    (.text "\x7b\x7b@context: B\x7d\x7d\x7b\x7b@context: A\x7d\x7d")).put
    ⟨"/work/q.md"⟩ (.text "\x7b\x7b@context: C\x7d\x7d")

/-- A document that names a class, includes the first file and imports the second one. -/
def namingClass : Call :=
  ⟨⟨⟨⟨"/work/a.md"⟩, "a.md"⟩, [], none, true⟩, ⟨"/work/a.md"⟩, ⟨"/work"⟩,
    some "\x7b\x7b@context: A\x7d\x7d\x7b\x7binclude: p.md\x7d\x7d\x7b\x7b@import: q.md\x7d\x7d"⟩

/-- The document has entries for its own class and that of the part. The imported file is sectioned
on its own. -/
theorem classes_of_part_and_import :
    let r := make (.builtin threeClasses) ⟨"/work"⟩
    let store := Store.memory namingClasses
    let s := r.after [] ((start store).withTargets [])
    r.registry = Registry.builtin threeClasses ++ [] ∧ (∀ c ∈ ([] : Registry), c.KeepsApart) ∧
      (∃ content, (r.call namingClass s).1 = .ok content ∧
        r.Sectioned threeClasses [] store (depthFor store) namingClass.job s content) ∧
      (r.flattenWithin store (depthFor store) namingClass.job .empty).map (fun flattened =>
        (flattened.occurrences.filterMap (entryOfClass? threeClasses)).map (·.key))
          = some ["A", "B", "A"] ∧
      ∃ m ∈ r.callTrace namingClass s, ∃ template t content,
        r.Sectioned threeClasses [] store m.depth (r.importJob template ⟨"/work/q.md"⟩) t
          content := by
  intro r store s
  have hr : r.registry = Registry.builtin threeClasses ++ [] := (List.append_nil _).symm
  have hothers : ∀ c ∈ ([] : Registry), c.KeepsApart := List.forall_mem_nil _
  obtain ⟨hdocument, himports⟩ :=
    sections_of_flattened r threeClasses [] hr hothers store [] [] namingClass
  have hok : (r.call namingClass s).1.toOption.isSome = true := by decide +kernel
  obtain ⟨content, hcontent⟩ := Option.isSome_iff_exists.1 hok
  have hplaced : ∃ a ∈ Trace.placings r (r.callTrace namingClass s),
      a.source = ⟨"/work/q.md"⟩ ∧ a.ended.toOption.isSome = true := by
    decide +kernel
  obtain ⟨a, ha, hsource, hended⟩ := hplaced
  obtain ⟨imported, himported⟩ := Option.isSome_iff_exists.1 hended
  obtain ⟨m, hm, template, t, _, _, hsections⟩ :=
    himports a ha imported (Except.of_toOption himported)
  refine ⟨hr, hothers, ⟨content, Except.of_toOption hcontent,
    hdocument content (Except.of_toOption hcontent)⟩, by decide +kernel, m, hm, template, t,
    imported, hsource ▸ hsections⟩

end Renderer
end AgentDocs
