import AgentDocs.Template.Checked
import Mathlib.Data.List.Forall2

/-! # What a check passes

A check collects faults and never stops at one. It passes where it finds none, and then every check
that it is made of passes too, with what was read there. So what a check admits is told from what
its parts admit, one combinator at a time. -/
namespace AgentDocs.Template

/-! ## The monad -/

namespace Checked
variable {α β : Type}

@[simp] theorem value_pure (a : α) : (pure a : Checked α).value = a := rfl

@[simp] theorem violations_pure (a : α) : (pure a : Checked α).violations = [] := rfl

@[simp] theorem value_bind (x : Checked α) (f : α → Checked β) :
    (x >>= f).value = (f x.value).value := rfl

@[simp] theorem violations_bind (x : Checked α) (f : α → Checked β) :
    (x >>= f).violations = x.violations ++ (f x.value).violations := rfl

@[simp] theorem violations_map (f : α → β) (x : Checked α) : (f <$> x).violations = x.violations :=
  List.append_nil x.violations

instance : LawfulMonad Checked := LawfulMonad.mk' Checked
  (fun x => congrArg (Checked.mk x.value) (List.append_nil x.violations))
  (fun _ _ => rfl)
  (fun x f g => congrArg (Checked.mk _)
    (List.append_assoc x.violations (f x.value).violations (g (f x.value).value).violations))

theorem eq_pure_iff {c : Checked α} {a : α} : c = pure a ↔ c.violations = [] ∧ c.value = a := by
  obtain ⟨value, violations⟩ := c
  constructor
  · intro h
    cases h
    exact ⟨rfl, rfl⟩
  · rintro ⟨rfl, rfl⟩
    rfl

theorem pure_inj {a b : α} : (pure a : Checked α) = pure b ↔ a = b :=
  ⟨congrArg Checked.value, congrArg pure⟩

/-- A check of two parts passes where both do. -/
theorem bind_eq_pure_iff {x : Checked α} {f : α → Checked β} {b : β} :
    x >>= f = pure b ↔ ∃ a, x = pure a ∧ f a = pure b := by
  simp only [eq_pure_iff, violations_bind, value_bind, List.append_eq_nil_iff]
  constructor
  · rintro ⟨⟨hx, hf⟩, hb⟩
    exact ⟨x.value, ⟨hx, rfl⟩, hf, hb⟩
  · rintro ⟨_, ⟨hx, rfl⟩, hf, hb⟩
    exact ⟨⟨hx, hf⟩, hb⟩

/-- A list passes where each of its items does. -/
theorem mapM_eq_pure_iff {f : α → Checked β} {as : List α} {bs : List β} :
    as.mapM f = pure bs ↔ List.Forall₂ (fun a b => f a = pure b) as bs := by
  induction as generalizing bs with
  | nil => rw [List.mapM_nil, pure_inj, List.forall₂_nil_left_iff, eq_comm]
  | cons a as ih =>
    simp only [List.mapM_cons, bind_eq_pure_iff, List.forall₂_cons_left_iff, pure_inj, ih]
    constructor
    · rintro ⟨b, hb, bs, hbs, rfl⟩
      exact ⟨b, bs, hb, hbs, rfl⟩
    · rintro ⟨b, bs, hb, hbs, rfl⟩
      exact ⟨b, hb, bs, hbs, rfl⟩

theorem violations_mapM (f : α → Checked β) (as : List α) :
    (as.mapM f).violations = as.flatMap fun a => (f a).violations := by
  induction as with
  | nil => rfl
  | cons a as ih => simp [List.mapM_cons, ih]

theorem result_eq_ok_iff {c : Checked α} {a : α} : c.result = .ok a ↔ c = pure a := by
  rw [eq_pure_iff, result]
  split
  · rename_i h
    simp [List.isEmpty_iff.1 h]
  · rename_i h
    simp [mt List.isEmpty_iff.2 h]

/-- A check fails where there is a fault, with all of them. -/
theorem result_eq_error_iff {c : Checked α} {vs : List Violation} :
    c.result = .error vs ↔ vs ≠ [] ∧ c.violations = vs := by
  rw [result]
  split
  · rename_i h
    rw [List.isEmpty_iff.1 h]
    exact ⟨nofun, fun ⟨hvs, hnil⟩ => absurd hnil.symm hvs⟩
  · rename_i h
    rw [List.isEmpty_iff] at h
    constructor
    · rintro ⟨⟩
      exact ⟨h, rfl⟩
    · rintro ⟨-, rfl⟩
      rfl

theorem complain_ne_pure {path expected found : String} {a : Option α} :
    complain path expected found ≠ pure a :=
  fun h => nomatch (eq_pure_iff.1 h).1

end Checked

/-! ## What values say -/

section
variable {α : Type}

/-- A check passes just the values that say something, and reads what they say. -/
def Reads (read : String → Json → Checked α) (Says : Json → α → Prop) : Prop :=
  ∀ path v a, read path v = pure a ↔ Says v a

/-- One thing, where a check may read none. -/
def Just (Says : Json → α → Prop) (v : Json) (x : Option α) : Prop := ∃ a, x = some a ∧ Says v a

def IsText (v : Json) (text : String) : Prop := v = .string text ∧ text ≠ ""

def IsFlag (v : Json) (flag : Bool) : Prop := v = .bool flag

/-- A list that is not empty, with one thing for each of its items. -/
def ListOf (Says : Json → α → Prop) (v : Json) (as : List α) : Prop :=
  ∃ items, v = .array items ∧ items ≠ [] ∧ List.Forall₂ Says items as

def KeysWithin (allowed : List String) (members : List (String × Json)) : Prop :=
  ∀ m ∈ members, m.1 ∈ allowed

/-- A mapping with allowed keys only. -/
def MappingOf (allowed : List String) (Says : List (String × Json) → α → Prop) (v : Json) (a : α) :
    Prop :=
  ∃ members, v = .object members ∧ KeysWithin allowed members ∧ Says members a

def HasText (members : List (String × Json)) (key : String) (text : String) : Prop :=
  ∃ v, Json.get? key members = some v ∧ IsText v text

/-- What a mapping says by a key that it need not have. -/
inductive Declares (members : List (String × Json)) (key : String) (default : α)
    (Says : Json → α → Prop) : α → Prop
  | absent (h : Json.get? key members = none) : Declares members key default Says default
  | given {v : Json} {a : α} (h : Json.get? key members = some v) (hgiven : Says v a) :
    Declares members key default Says a

/-! ## What the combinators pass -/

open Checked

/-- What is done with what was read counts only where something was read. -/
theorem Reads.bind_iff {β : Type} {read : String → Json → Checked (Option α)}
    {Says : Json → α → Prop} (hread : Reads read (Just Says)) {path : String} {v : Json}
    {f : Option α → Checked β} {b : β} :
    read path v >>= f = pure b ↔ ∃ a, Says v a ∧ f (some a) = pure b := by
  rw [bind_eq_pure_iff]
  simp only [hread path v]
  constructor
  · rintro ⟨_, ⟨a, rfl, ha⟩, h⟩
    exact ⟨a, ha, h⟩
  · rintro ⟨a, ha, h⟩
    exact ⟨_, ⟨a, rfl, ha⟩, h⟩

theorem reads_boolean : Reads boolean (Just IsFlag) := by
  intro path v x
  cases v with
  | bool b =>
    rw [boolean, pure_inj]
    constructor
    · rintro rfl
      exact ⟨b, rfl, rfl⟩
    · rintro ⟨_, rfl, ⟨⟩⟩
      rfl
  | _ => exact ⟨fun h => absurd h complain_ne_pure, nofun⟩

theorem reads_nonEmptyString : Reads nonEmptyString (Just IsText) := by
  intro path v x
  cases v with
  | string s =>
    by_cases hs : s = ""
    · subst hs
      refine ⟨fun h => absurd h complain_ne_pure, ?_⟩
      rintro ⟨_, _, ⟨⟩, hne⟩
      exact absurd rfl hne
    · simp only [nonEmptyString, String.isEmpty_iff, hs, if_false, pure_inj]
      constructor
      · rintro rfl
        exact ⟨s, rfl, rfl, hs⟩
      · rintro ⟨_, rfl, ⟨⟩, -⟩
        rfl
  | _ => exact ⟨fun h => absurd h complain_ne_pure, nofun⟩

theorem Section.required_eq_pure_iff {s : Section} {key : String} {x : Option String} :
    s.required key = pure x ↔ ∃ text, x = some text ∧ HasText s.members key text := by
  unfold Section.required
  cases hv : Json.get? key s.members with
  | none => exact ⟨fun h => absurd h complain_ne_pure, fun ⟨_, _, _, h, _⟩ => nomatch hv ▸ h⟩
  | some v =>
    refine (reads_nonEmptyString _ v x).trans (exists_congr fun text => and_congr_right fun _ => ?_)
    exact ⟨fun h => ⟨v, hv, h⟩, fun ⟨w, hw, h⟩ => Option.some.inj (hv.symm.trans hw) ▸ h⟩

theorem Section.required_bind_iff {s : Section} {key : String}
    {f : Option String → Checked α} {a : α} :
    s.required key >>= f = pure a ↔ ∃ text, HasText s.members key text ∧ f (some text) = pure a := by
  simp only [bind_eq_pure_iff, required_eq_pure_iff]
  constructor
  · rintro ⟨_, ⟨text, rfl, htext⟩, h⟩
    exact ⟨text, htext, h⟩
  · rintro ⟨text, htext, h⟩
    exact ⟨_, ⟨text, rfl, htext⟩, h⟩

theorem Section.optional_eq_pure_iff {s : Section} {key : String} {default a : α}
    {read : String → Json → Checked α} {Says : Json → α → Prop} (hread : Reads read Says) :
    s.optional key default read = pure a ↔ Declares s.members key default Says a := by
  unfold Section.optional
  cases hv : Json.get? key s.members with
  | none =>
    rw [pure_inj]
    constructor
    · rintro rfl
      exact .absent hv
    · rintro (_ | ⟨h, -⟩)
      · rfl
      · exact nomatch hv ▸ h
  | some v =>
    refine (hread _ v a).trans ⟨.given hv, ?_⟩
    rintro (h | ⟨h, hgiven⟩)
    · exact nomatch hv ▸ h
    · exact Option.some.inj (hv.symm.trans h) ▸ hgiven

theorem Section.optional_bind_iff {β : Type} {s : Section} {key : String} {default : α}
    {read : String → Json → Checked α} {Says : Json → α → Prop} (hread : Reads read Says)
    {f : α → Checked β} {b : β} :
    s.optional key default read >>= f = pure b ↔
      ∃ a, Declares s.members key default Says a ∧ f a = pure b := by
  simp only [bind_eq_pure_iff, optional_eq_pure_iff hread]

theorem mapping_eq_pure_iff {allowed : List String} {path : String} {v : Json}
    {x : Option Section} :
    mapping allowed path v = pure x ↔
      ∃ members, v = .object members ∧ KeysWithin allowed members ∧ x = some ⟨path, members⟩ := by
  cases v with
  | object members =>
    have hkeys : members.filter (fun m => !allowed.contains m.1) = [] ↔
        KeysWithin allowed members := by
      simp [List.filter_eq_nil_iff, KeysWithin]
    rw [mapping, eq_pure_iff, List.map_eq_nil_iff, hkeys]
    constructor
    · rintro ⟨h, rfl⟩
      exact ⟨members, rfl, h, rfl⟩
    · rintro ⟨_, ⟨⟩, h, rfl⟩
      exact ⟨h, rfl⟩
  | _ => exact ⟨fun h => absurd h complain_ne_pure, nofun⟩

/-- What is read from the members of a mapping counts only where the mapping has no other keys. -/
theorem mapping_bind_iff {allowed : List String} {path : String} {v : Json}
    {f : Option Section → Checked α} {a : α} :
    mapping allowed path v >>= f = pure a ↔
      MappingOf allowed (fun members a => f (some ⟨path, members⟩) = pure a) v a := by
  simp only [bind_eq_pure_iff, mapping_eq_pure_iff]
  constructor
  · rintro ⟨_, ⟨members, hv, hkeys, rfl⟩, h⟩
    exact ⟨members, hv, hkeys, h⟩
  · rintro ⟨members, hv, hkeys, h⟩
    exact ⟨_, ⟨members, hv, hkeys, rfl⟩, h⟩

theorem nonEmptyList_eq_pure_iff {path : String} {v : Json} {x : Option (List Json)} :
    nonEmptyList path v = pure x ↔ ∃ items, v = .array items ∧ items ≠ [] ∧ x = some items := by
  cases v with
  | array items =>
    cases items with
    | nil => exact ⟨fun h => absurd h complain_ne_pure, nofun⟩
    | cons item rest =>
      rw [nonEmptyList, pure_inj]
      constructor
      · rintro rfl
        exact ⟨_, rfl, List.cons_ne_nil _ _, rfl⟩
      · rintro ⟨_, ⟨⟩, -, rfl⟩
        rfl
  | _ => exact ⟨fun h => absurd h complain_ne_pure, nofun⟩

/-- One thing is read for each item exactly if something is read for each of them. -/
theorem forall₂_just_iff {Says : Json → α → Prop} {items : List Json} {found : List (Option α)} :
    List.Forall₂ (Just Says) items found ↔
      ∃ as, found = as.map some ∧ List.Forall₂ Says items as := by
  constructor
  · intro h
    induction h with
    | nil => exact ⟨[], rfl, .nil⟩
    | cons hitem _ ih =>
      obtain ⟨a, rfl, ha⟩ := hitem
      obtain ⟨as, rfl, has⟩ := ih
      exact ⟨a :: as, rfl, .cons ha has⟩
  · rintro ⟨as, rfl, h⟩
    exact List.forall₂_map_right_iff.2 (h.imp fun _ a ha => ⟨a, rfl, ha⟩)

/-- Where no item is dropped for a fault, the items that are read are all items, in order. -/
theorem Reads.eachItem {read : String → Json → Checked (Option α)} {Says : Json → α → Prop}
    (hread : Reads read (Just Says)) : Reads (fun path => eachItem path read) (ListOf Says) := by
  intro path v as
  have hitems (items : List Json) (found : List (Option α)) :
      items.zipIdx.mapM (fun p => read (itemPath path p.2) p.1) = pure found ↔
        ∃ as, found = as.map some ∧ List.Forall₂ Says items as := by
    rw [mapM_eq_pure_iff, ← forall₂_just_iff]
    simp only [hread _ _ _]
    rw [← List.forall₂_map_left_iff (f := Prod.fst), List.zipIdx_map_fst]
  simp only [Template.eachItem]
  rw [bind_eq_pure_iff]
  constructor
  · rintro ⟨_, hlist, h⟩
    obtain ⟨items, rfl, hne, rfl⟩ := nonEmptyList_eq_pure_iff.1 hlist
    obtain ⟨found, hfound, has⟩ := bind_eq_pure_iff.1 h
    obtain ⟨as', rfl, hgiven⟩ := (hitems items found).1 hfound
    rw [pure_inj, List.filterMap_map] at has
    refine ⟨items, rfl, hne, has ▸ ?_⟩
    simpa using hgiven
  · rintro ⟨items, rfl, hne, hgiven⟩
    refine ⟨some items, nonEmptyList_eq_pure_iff.2 ⟨items, rfl, hne, rfl⟩,
      bind_eq_pure_iff.2 ⟨as.map some, (hitems items _).2 ⟨as, rfl, hgiven⟩, ?_⟩⟩
    rw [pure_inj, List.filterMap_map]
    simp

/-- The faults of a list are those of its items, in order, so that none of them hides another. -/
theorem violations_eachItem (path : String) (read : String → Json → Checked (Option α))
    (item : Json) (rest : List Json) :
    (Template.eachItem path read (.array (item :: rest))).violations =
      (item :: rest).zipIdx.flatMap fun p => (read (itemPath path p.2) p.1).violations := by
  simp only [Template.eachItem, nonEmptyList, pure_bind, violations_bind, violations_mapM,
    violations_pure, List.append_nil]

theorem reads_stringList : Reads stringList (ListOf IsText) := reads_nonEmptyString.eachItem

end

end AgentDocs.Template
