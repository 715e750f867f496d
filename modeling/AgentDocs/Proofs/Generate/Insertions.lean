import AgentDocs.Proofs.Generate.Targets

/-! # Claiming files, one after the other

Templates claim files in any order, and some of the claims fail. What is collected is always a map
from paths to files: a path is names between slashes, two claims meet in one path exactly where
their targets are one place, and a path stays with the template that had it first. -/
namespace AgentDocs

namespace Text

theorem not_of_getLast?_dropTailWhile {p : Char → Bool} {cs : List Char} {c : Char}
    (h : (dropTailWhile p cs).getLast? = some c) : p c = false := by
  rw [dropTailWhile, List.getLast?_reverse] at h
  have hhead := List.head?_dropWhile_not p cs.reverse
  rw [h] at hhead
  simpa using hhead

end Text

namespace Artifacts
open Text

/-- A text without blanks at its end, and one line feed. -/
def Finished (content : String) : Prop :=
  ∃ text : String, content = text ++ "\n" ∧ ∀ c, text.toList.getLast? = some c → isBlank c = false

theorem finished_finished (content : String) : Finished (finished content) := by
  refine ⟨trimmedRight content, rfl, fun c hc => ?_⟩
  rw [trimmedRight, onChars, String.toList_ofList] at hc
  exact not_of_getLast?_dropTailWhile hc

/-! ## One claim -/

/-- What a template claims a file with. -/
structure Insertion where
  origin : String
  target : Path
  content : String

/-- What a claim does to artifacts where it succeeds: its file is found by a key, and all other
files are as they were. -/
structure Takes (as : Artifacts) (i : Insertion) (bs : Artifacts) (key : String) : Prop where
  inside : relative? as.root i.target = some key
  free : ∀ a, as.find? key = some a → a.origin = i.origin
  found : ∀ other, bs.find? other
    = if key = other then some ⟨key, finished i.content, i.origin⟩ else as.find? other

theorem find?_place (a : Artifact) (items : List Artifact) (key : String) :
    (place a items).find? (·.path == key)
      = if a.path = key then some a else items.find? (·.path == key) := by
  induction items with
  | nil => by_cases h : a.path = key <;> simp [place, h]
  | cons b items ih =>
    simp only [place]
    split
    · by_cases h : a.path = key <;> simp [h]
    split
    · rename_i heq
      by_cases h : a.path = key
      · simp [h]
      · simp [h, heq ▸ h]
    · rename_i hne
      by_cases hb : b.path = key
      · simp [hb, hb ▸ hne]
      · simp [hb, ih]

theorem exists_takes {as bs : Artifacts} {i : Insertion}
    (h : as.insert i.origin i.target i.content = .ok bs) : ∃ key, Takes as i bs key := by
  obtain ⟨key, hkey, hfree, rfl⟩ := exists_of_insert h
  exact ⟨key, hkey, hfree, fun other => find?_place _ _ other⟩

/-- The artifacts after a claim that may fail. -/
def attempt (as : Artifacts) (i : Insertion) : Artifacts :=
  match as.insert i.origin i.target i.content with
  | .ok bs => bs
  | .error _ => as

theorem attempt_ok {as bs : Artifacts} {i : Insertion}
    (h : as.insert i.origin i.target i.content = .ok bs) : attempt as i = bs := by
  simp only [attempt, h]

theorem attempt_error {as : Artifacts} {i : Insertion} {e : GenerateError}
    (h : as.insert i.origin i.target i.content = .error e) : attempt as i = as := by
  simp only [attempt, h]

/-- What a claim keeps if it succeeds is kept by every claim. -/
theorem attempt_keeps {P : Artifacts → Prop} {as : Artifacts} (has : P as) (i : Insertion)
    (h : ∀ bs, as.insert i.origin i.target i.content = .ok bs → P bs) : P (attempt as i) := by
  cases hi : as.insert i.origin i.target i.content with
  | ok bs => exact attempt_ok hi ▸ h bs hi
  | error e => exact (attempt_error hi).symm ▸ has

/-! ## Claims one after the other -/

/-- The artifacts for a root after some claims. -/
def after (root : Path) (made : List Insertion) : Artifacts := made.foldl attempt (empty root)

theorem after_append (root : Path) (before rest : List Insertion) :
    after root (before ++ rest) = rest.foldl attempt (after root before) := List.foldl_append

theorem collected_foldl_attempt {root : Path} (made : List Insertion) {as : Artifacts}
    (h : Collected root as) : Collected root (made.foldl attempt as) := by
  induction made generalizing as with
  | nil => exact h
  | cons i made ih => exact ih (attempt_keeps h i fun _ hi => h.insert hi)

theorem collected_after (root : Path) (made : List Insertion) : Collected root (after root made) :=
  collected_foldl_attempt made (collected_empty root)

theorem finished_foldl_attempt (made : List Insertion) {as : Artifacts}
    (h : ∀ a ∈ as.items, Finished a.content) :
    ∀ a ∈ (made.foldl attempt as).items, Finished a.content := by
  induction made generalizing as with
  | nil => exact h
  | cons i made ih =>
    refine ih (attempt_keeps (P := fun bs => ∀ a ∈ bs.items, Finished a.content) h i
      fun bs hi a ha => ?_)
    obtain ⟨_, _, _, rfl⟩ := exists_of_insert hi
    rcases mem_place ha with rfl | ha
    · exact finished_finished _
    · exact h a ha

/-- A path that is claimed stays with its template. -/
theorem exists_of_foldl_attempt (made : List Insertion) {as : Artifacts} {key : String}
    {a : Artifact} (h : as.find? key = some a) :
    ∃ b, (made.foldl attempt as).find? key = some b ∧ b.origin = a.origin := by
  induction made generalizing as a with
  | nil => exact ⟨a, h, rfl⟩
  | cons i made ih =>
    have hstep : ∃ b, (attempt as i).find? key = some b ∧ b.origin = a.origin := by
      refine attempt_keeps (P := fun bs => ∃ b, bs.find? key = some b ∧ b.origin = a.origin)
        ⟨a, h, rfl⟩ i fun bs hi => ?_
      obtain ⟨taken, htakes⟩ := exists_takes hi
      rw [htakes.found]
      split
      · rename_i heq
        exact ⟨_, rfl, (htakes.free a (heq ▸ h)).symm⟩
      · exact ⟨a, h, rfl⟩
    obtain ⟨b, hb, horigin⟩ := hstep
    obtain ⟨c, hc, hsame⟩ := ih hb
    exact ⟨c, hc, hsame.trans horigin⟩

/-- Two targets inside a root have one path exactly if they are one place. -/
theorem relative?_eq_iff {root s t : Path} {p q : String}
    (hs : relative? root.normal s = some p) (ht : relative? root.normal t = some q) :
    p = q ↔ (root.join s).normal = (root.join t).normal := by
  have hroot := Path.normal_normal root
  have hp := placeOf_of_relative? hroot hs
  have hq := placeOf_of_relative? hroot ht
  rw [Path.normal_join_normal] at hp hq
  rw [← hp, ← hq]
  refine ⟨fun h => h ▸ rfl, fun h => ?_⟩
  exact placeOf_injective (isBelow_of_relative? hs) (isBelow_of_relative? ht)
    (congrArg Path.parts h)

/-- Whether one of the claims succeeds, and its file gets a key. -/
def Accepted (root : Path) (made : List Insertion) (i : Insertion) (key : String) : Prop :=
  ∃ before rest bs, made = before ++ i :: rest ∧
    (after root before).insert i.origin i.target i.content = .ok bs ∧
    Takes (after root before) i bs key

theorem Accepted.inside {root : Path} {made : List Insertion} {i : Insertion} {key : String}
    (h : Accepted root made i key) : relative? root.normal i.target = some key := by
  obtain ⟨before, rest, bs, _, _, htakes⟩ := h
  exact (collected_after root before).root_eq ▸ htakes.inside

/-- The file of a claim that succeeded is still there, for its template. -/
theorem Accepted.exists_found {root : Path} {made : List Insertion} {i : Insertion} {key : String}
    (h : Accepted root made i key) :
    ∃ a, (after root made).find? key = some a ∧ a.origin = i.origin := by
  obtain ⟨before, rest, bs, rfl, hi, htakes⟩ := h
  have hfound : bs.find? key = some ⟨key, finished i.content, i.origin⟩ := by
    rw [htakes.found, if_pos rfl]
  rw [after_append, List.foldl_cons, attempt_ok hi]
  exact exists_of_foldl_attempt rest hfound

/-- A field of a path that is a normal part. -/
def IsNormalField (field : List Char) : Prop := field ∉ [[], ['.'], ['.', '.']]

theorem isNormalField_of_isBelow {path : String} (h : IsBelow path) :
    ∀ field ∈ split '/' path.toList, IsNormalField field := by
  obtain ⟨names, hn, hne, rfl⟩ := h
  rw [Path.split_slashed hne hn]
  intro field hfield
  obtain ⟨p, hp, rfl⟩ := List.mem_map.1 hfield
  obtain ⟨hname, hproper⟩ := hn p hp
  cases p with
  | name text => simp [IsNormalField, Part.text, hproper.1, hproper.2.1, hproper.2.2.1]
  | _ => simp [Part.isName] at hname

/-- What holds after any claims for a root. -/
structure Kept (root : Path) (made : List Insertion) : Prop where
  /-- An artifact is found by its path, and the path is names between slashes. -/
  path : ∀ key a, (after root made).find? key = some a →
    a.path = key ∧ ∀ field ∈ split '/' key.toList, IsNormalField field
  content : ∀ key a, (after root made).find? key = some a → Finished a.content
  /-- No path is there twice. -/
  once : ((after root made).items.map (·.path)).Nodup
  /-- A claim that succeeds has a key. -/
  accepted : ∀ before i rest bs, made = before ++ i :: rest →
    (after root before).insert i.origin i.target i.content = .ok bs →
    ∃ key, Accepted root made i key
  shared : ∀ i j p q, Accepted root made i p → Accepted root made j q →
    (p = q ↔ (root.join i.target).normal = (root.join j.target).normal)
  /-- No two templates have one file. -/
  owned : ∀ i j key, Accepted root made i key → Accepted root made j key → i.origin = j.origin
  /-- What a template has it keeps. -/
  origin : ∀ before rest key a, made = before ++ rest →
    (after root before).find? key = some a →
    ∃ b, (after root made).find? key = some b ∧ b.origin = a.origin
  /-- After a claim that fails all is as if it had not been made. -/
  failed : ∀ before i rest e, made = before ++ i :: rest →
    (after root before).insert i.origin i.target i.content = .error e →
    after root made = after root (before ++ rest)

theorem mem_of_find? {as : Artifacts} {key : String} {a : Artifact} (h : as.find? key = some a) :
    a ∈ as.items ∧ a.path = key :=
  ⟨List.mem_of_find?_eq_some h, by simpa using List.find?_some h⟩

theorem kept_after (root : Path) (made : List Insertion) : Kept root made where
  path := by
    intro key a h
    obtain ⟨ha, rfl⟩ := mem_of_find? h
    exact ⟨rfl, isNormalField_of_isBelow ((collected_after root made).below a ha)⟩
  content key a h := finished_foldl_attempt made (by simp [empty]) a (mem_of_find? h).1
  once := (collected_after root made).nodup
  accepted := by
    intro before i rest bs hmade hi
    obtain ⟨key, htakes⟩ := exists_takes hi
    exact ⟨key, before, rest, bs, hmade, hi, htakes⟩
  shared i j p q hi hj := relative?_eq_iff hi.inside hj.inside
  owned := by
    intro i j key hi hj
    obtain ⟨a, ha, horigin⟩ := hi.exists_found
    obtain ⟨b, hb, hsame⟩ := hj.exists_found
    rw [← horigin, ← hsame, Option.some.inj (ha.symm.trans hb)]
  origin := by
    rintro before rest key a rfl h
    rw [after_append]
    exact exists_of_foldl_attempt rest h
  failed := by
    rintro before i rest e rfl hi
    rw [after_append, after_append, List.foldl_cons, attempt_error hi]

/-- A second template gets neither another spelling of a file nor a place outside. -/
example : (after ⟨"/w"⟩ [⟨"a", ⟨"x/./y"⟩, "A "⟩, ⟨"b", ⟨"/w/x/y"⟩, "B"⟩, ⟨"b", ⟨"../z"⟩, "C"⟩]).items
    = [⟨"x/y", "A\n", "a"⟩] := by decide +kernel

end Artifacts
end AgentDocs
