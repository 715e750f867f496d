import AgentDocs.Proofs.Markup.Fill
import AgentDocs.Proofs.Template.Headed
import Mathlib.Data.List.Perm.Basic

/-! # The order of the variables

The variables of a header block may stand in any order where their names do not run into one
another and none of them is left once all are filled in: the headers are the other ones with all
variables filled in at once. Elsewhere the order counts. -/
namespace AgentDocs

/-- Where at most one element gives a result, their order does not matter. -/
theorem findSome?_eq_of_perm {α β : Type} {f : α → Option β} {l l' : List α} (hl : l.Perm l')
    (h : l.Pairwise fun a b => f a = none ∨ f b = none) : l.findSome? f = l'.findSome? f := by
  induction hl with
  | nil => rfl
  | cons a _ ih => rw [List.findSome?_cons, List.findSome?_cons, ih (List.pairwise_cons.1 h).2]
  | swap a b l =>
    have hab := (List.pairwise_cons.1 h).1 a List.mem_cons_self
    rcases hab with hb | ha
    · simp only [List.findSome?_cons, hb]
    · simp only [List.findSome?_cons, ha]
  | trans hl _ ih ih' =>
    rw [ih h]
    exact ih' (h.perm hl fun hab => hab.symm)

theorem filter_flatMap_of_forall {α : Type} {p : α → Bool} {f : α → List α}
    (h : ∀ a, ∀ b ∈ f a, p b = p a) (l : List α) :
    (l.flatMap f).filter p = (l.filter p).flatMap f := by
  induction l with
  | nil => rfl
  | cons a l ih =>
    rw [List.flatMap_cons, List.filter_append, ih]
    cases ha : p a with
    | false =>
      have hnone : (f a).filter p = [] := List.filter_eq_nil_iff.2 fun b hb => by simp [h a b hb, ha]
      rw [hnone, List.filter_cons_of_neg (by simp [ha]), List.nil_append]
    | true =>
      have hall : (f a).filter p = f a := List.filter_eq_self.2 fun b hb => by rw [h a b hb, ha]
      rw [hall, List.filter_cons_of_pos ha, List.flatMap_cons]

namespace Markup
open Text

/-! ## The headers of a block -/

/-- The headers that a written header stands for, none if it cannot be decoded. -/
def Header.decodedOf (h : Header) : List Header := h.decoded.toOption.getD []

theorem Header.decodedOf_eq {h : Header} {these : List Header} (hd : h.decoded = .ok these) :
    h.decodedOf = these := by
  rw [Header.decodedOf, hd]
  rfl

theorem Header.name_of_mem_decodedOf {h : Header} : ∀ d ∈ h.decodedOf, d.name = h.name := by
  intro d hd
  cases hdec : h.decoded with
  | error e =>
    rw [Header.decodedOf, hdec] at hd
    cases hd
  | ok these => exact name_of_mem_decoded hdec d (Header.decodedOf_eq hdec ▸ hd)

theorem Header.isVariable_of_mem_decodedOf {h : Header} :
    ∀ d ∈ h.decodedOf, d.isVariable = h.isVariable := by
  intro d hd
  rw [Header.isVariable, Header.isVariable, Header.name_of_mem_decodedOf d hd]

/-- Whether a written header can be decoded. -/
def Header.Decodes (h : Header) : Prop := h.decoded.toOption.isSome = true

instance (h : Header) : Decidable h.Decodes := inferInstanceAs (Decidable (_ = true))

theorem toOption_decodeAll (raw : List Header) :
    (decodeAll raw).toOption
      = if ∀ h ∈ raw, h.Decodes then some (raw.flatMap Header.decodedOf) else none := by
  induction raw with
  | nil => rfl
  | cons r raw ih =>
    cases hr : r.decoded with
    | error e =>
      have hfails : ¬r.Decodes := by simp [Header.Decodes, hr, Except.toOption]
      have : decodeAll (r :: raw) = .error e := by rw [decodeAll, hr]; rfl
      rw [this, if_neg fun hall => hfails (hall r List.mem_cons_self)]
      rfl
    | ok these =>
      have hdecodes : r.Decodes := by simp [Header.Decodes, hr, Except.toOption]
      have hcons : (decodeAll (r :: raw)).toOption
          = (decodeAll raw).toOption.map (these ++ ·) := by
        rw [decodeAll, hr]
        cases decodeAll raw <;> rfl
      simp only [hcons, ih, List.forall_mem_cons, hdecodes, true_and, List.flatMap_cons,
        Header.decodedOf_eq hr]
      split <;> rfl

/-- The headers written in a block. -/
def HeaderBlock.written (block : HeaderBlock) : List Header := block.lines.filterMap Header.ofLine?

/-- The variables written in a block. -/
def HeaderBlock.vars (block : HeaderBlock) : List Header :=
  block.written.filter Header.isVariable

/-- The other headers written in a block. -/
def HeaderBlock.others (block : HeaderBlock) : List Header :=
  block.written.filter fun h => !h.isVariable

/-- What the variables of a block are bound to. -/
def HeaderBlock.bindings (block : HeaderBlock) : List Header :=
  block.vars.flatMap Header.decodedOf

/-- The headers of a block with all variables filled in. -/
def HeaderBlock.filled (block : HeaderBlock) : List Header :=
  (block.others.flatMap Header.decodedOf).map fun h =>
    { h with value := fill block.bindings h.value }

/-- A block in which the variables stand in another order. -/
structure HeaderBlock.Reorders (other block : HeaderBlock) : Prop where
  body : other.body = block.body
  others : other.others = block.others
  vars : other.vars.Perm block.vars

/-- A block whose variables have names of their own that do not run into one another and are all
gone, once they are filled in. -/
structure HeaderBlock.Clear (block : HeaderBlock) : Prop where
  nodup : (block.vars.map Header.name).Nodup
  apart : Apart (block.bindings.map Header.name)
  plain : ∀ b ∈ block.bindings, '$' ∉ b.value
  gone : ∀ h ∈ block.filled, ∀ b ∈ block.bindings, ¬b.name <:+: h.value

section
variable (block other : HeaderBlock)

instance : Decidable (other.Reorders block) :=
  decidable_of_iff (other.body = block.body ∧ other.others = block.others ∧
      other.vars.Perm block.vars)
    ⟨fun ⟨hbody, hothers, hvars⟩ => ⟨hbody, hothers, hvars⟩, fun h => ⟨h.body, h.others, h.vars⟩⟩

instance : Decidable block.Clear :=
  decidable_of_iff ((block.vars.map Header.name).Nodup ∧
      Apart (block.bindings.map Header.name) ∧ (∀ b ∈ block.bindings, '$' ∉ b.value) ∧
      ∀ h ∈ block.filled, ∀ b ∈ block.bindings, ¬b.name <:+: h.value)
    ⟨fun ⟨hnodup, hapart, hplain, hgone⟩ => ⟨hnodup, hapart, hplain, hgone⟩,
      fun h => ⟨h.nodup, h.apart, h.plain, h.gone⟩⟩

end

theorem HeaderBlock.Clear.independent {block : HeaderBlock} (h : block.Clear) :
    Independent block.bindings where
  isVariable := by
    intro b hb
    obtain ⟨v, hv, hbv⟩ := List.mem_flatMap.1 hb
    rw [Header.isVariable_of_mem_decodedOf b hbv]
    exact (List.mem_filter.1 hv).2
  apart := h.apart
  plain := h.plain

theorem bindVariables_eq_map (headers : List Header) :
    bindVariables headers = (headers.filter fun h => !h.isVariable).map fun h =>
      ⟨h.name, (headers.filter Header.isVariable).foldl
        (fun text b => substitute b.name b.value text) h.value⟩ := by
  have hfold : ∀ vars rest : List Header, vars.foldl (fun rest v => rest.map v.bind) rest
      = rest.map fun h =>
          ⟨h.name, vars.foldl (fun text b => substitute b.name b.value text) h.value⟩ := by
    intro vars
    induction vars with
    | nil => exact fun rest => (List.map_id rest).symm
    | cons v vars ih =>
      intro rest
      rw [List.foldl_cons, ih, List.map_map]
      rfl
  exact hfold _ _

/-- The headers that a clear block gives. -/
theorem HeaderBlock.Clear.bindVariables_eq {block : HeaderBlock} (h : block.Clear) :
    bindVariables (block.written.flatMap Header.decodedOf) = block.filled := by
  have hvars : (block.written.flatMap Header.decodedOf).filter Header.isVariable
      = block.bindings :=
    filter_flatMap_of_forall (fun _ => Header.isVariable_of_mem_decodedOf) _
  have hothers : (block.written.flatMap Header.decodedOf).filter (fun h => !h.isVariable)
      = block.others.flatMap Header.decodedOf :=
    filter_flatMap_of_forall
      (fun v d hd => congrArg not (Header.isVariable_of_mem_decodedOf d hd)) _
  rw [bindVariables_eq_map, hvars, hothers, HeaderBlock.filled]
  refine List.map_congr_left fun d hd => ?_
  rw [h.independent.foldl_substitute (h.gone _ (List.mem_map_of_mem hd))]

/-- What a document with a clear block reads as. -/
theorem toOption_readHeaders {document : List Char} {block : HeaderBlock}
    (hblock : headerBlock? document = some block) (h : block.Clear) :
    (readHeaders document).toOption
      = if ∀ w ∈ block.written, w.Decodes then some ⟨block.filled, block.body⟩ else none := by
  have hread : (readHeaders document).toOption
      = (decodeAll block.written).toOption.map fun headers =>
          ⟨bindVariables headers, block.body⟩ := by
    rw [readHeaders, hblock, HeaderBlock.written]
    simp only
    cases decodeAll (block.lines.filterMap Header.ofLine?) <;> rfl
  rw [hread, toOption_decodeAll, ← h.bindVariables_eq]
  split <;> rfl

/-! ## Reordering -/

section
variable {block other : HeaderBlock}

theorem bound?_bindings (name : List Char) : bound? block.bindings name
    = block.vars.findSome? fun v => v.decodedOf.find? fun b => decide (b.name = name) := by
  rw [bound?, HeaderBlock.bindings, List.find?_flatMap]

/-- Each name is bound in one line, so that it does not matter where the line stands. -/
theorem HeaderBlock.Reorders.bound?_eq (hr : other.Reorders block)
    (hnodup : (block.vars.map Header.name).Nodup) (name : List Char) :
    bound? other.bindings name = bound? block.bindings name := by
  rw [bound?_bindings, bound?_bindings]
  refine (findSome?_eq_of_perm hr.vars.symm ?_).symm
  refine (List.pairwise_map.1 hnodup).imp fun {v w} hne => ?_
  by_cases hv : v.name = name
  · refine .inr (List.find?_eq_none.2 fun d hd => ?_)
    rw [decide_eq_true_iff, Header.name_of_mem_decodedOf d hd, ← hv]
    exact Ne.symm hne
  · refine .inl (List.find?_eq_none.2 fun d hd => ?_)
    rw [decide_eq_true_iff, Header.name_of_mem_decodedOf d hd]
    exact hv

theorem HeaderBlock.Reorders.mem_bindings_iff (hr : other.Reorders block) {b : Header} :
    b ∈ other.bindings ↔ b ∈ block.bindings :=
  (hr.vars.flatMap_right Header.decodedOf).mem_iff

theorem HeaderBlock.mem_written_iff {w : Header} :
    w ∈ block.written ↔ w ∈ block.vars ∨ w ∈ block.others := by
  rw [HeaderBlock.vars, HeaderBlock.others, List.mem_filter, List.mem_filter]
  cases w.isVariable <;> simp

theorem HeaderBlock.Reorders.mem_written (hr : other.Reorders block) {w : Header} :
    w ∈ other.written ↔ w ∈ block.written := by
  rw [HeaderBlock.mem_written_iff, HeaderBlock.mem_written_iff, hr.others, hr.vars.mem_iff]

theorem HeaderBlock.Reorders.independent (hr : other.Reorders block)
    (h : Independent block.bindings) : Independent other.bindings where
  isVariable := fun b hb => h.isVariable b (hr.mem_bindings_iff.1 hb)
  apart := by
    have hsub : other.bindings.map Header.name ⊆ block.bindings.map Header.name :=
      List.map_subset _ fun b hb => hr.mem_bindings_iff.1 hb
    exact fun v hv w hw => h.apart v (hsub hv) w (hsub hw)
  plain := fun b hb => h.plain b (hr.mem_bindings_iff.1 hb)

theorem HeaderBlock.Reorders.filled_eq (hr : other.Reorders block) (h : block.Clear) :
    other.filled = block.filled := by
  have hfill := h.independent.fill_congr (hr.independent h.independent) (hr.bound?_eq h.nodup)
  rw [HeaderBlock.filled, HeaderBlock.filled, hr.others]
  exact List.map_congr_left fun d _ => by rw [hfill]

/-- A clear block stays clear in another order. -/
theorem HeaderBlock.Clear.reorder (h : block.Clear) (hr : other.Reorders block) : other.Clear where
  nodup := ((hr.vars.map Header.name).nodup_iff).2 h.nodup
  apart := (hr.independent h.independent).apart
  plain := (hr.independent h.independent).plain
  gone := by
    rw [hr.filled_eq h]
    exact fun d hd b hb => h.gone d hd b (hr.mem_bindings_iff.1 hb)

end

/-- The order of the variables does not matter in a clear block: in every order the headers are
the other ones with all variables filled in at once, or there are none as one cannot be decoded. -/
theorem readHeaders_reordered (document other : List Char) (block block' : HeaderBlock)
    (hblock : headerBlock? document = some block) (hblock' : headerBlock? other = some block')
    (hr : block'.Reorders block) (hclear : block.Clear) :
    (readHeaders other).toOption = (readHeaders document).toOption ∧
      (readHeaders document).toOption
        = if ∀ w ∈ block.written, w.Decodes then some ⟨block.filled, block.body⟩ else none := by
  refine ⟨?_, toOption_readHeaders hblock hclear⟩
  rw [toOption_readHeaders hblock hclear, toOption_readHeaders hblock' (hclear.reorder hr),
    hr.filled_eq hclear, hr.body]
  simp only [hr.mem_written]

def moduleFirst : List Char :=
  "---\n$module: pay\n$team: core\ntarget: $team/$module$team.md\n---\nText".toList

def teamFirst : List Char :=
  "---\n$team: core\n$module: pay\ntarget: $team/$module$team.md\n---\nText".toList

/-- Names that stand side by side in a value. -/
theorem readHeaders_teamFirst :
    (readHeaders teamFirst).toOption = (readHeaders moduleFirst).toOption ∧
      (readHeaders moduleFirst).toOption
        = some ⟨[⟨"target".toList, "core/paycore.md".toList⟩], "Text".toList⟩ := by
  have h := readHeaders_reordered moduleFirst teamFirst
    ⟨.ruled, ["$module: pay".toList, "$team: core".toList, "target: $team/$module$team.md".toList],
      "Text".toList⟩
    ⟨.ruled, ["$team: core".toList, "$module: pay".toList, "target: $team/$module$team.md".toList],
      "Text".toList⟩
    (by decide +kernel) (by decide +kernel) (by decide +kernel) (by decide +kernel)
  exact ⟨h.1, h.2.trans (by decide +kernel)⟩

/-- Two documents that differ in the order of their variables only, each variable with a name of
its own and a value without the mark of variables, and that give different headers. -/
def OrderMatters (document other : List Char) : Prop :=
  ∃ block ∈ headerBlock? document, ∃ block' ∈ headerBlock? other, block'.Reorders block ∧
    (block.vars.map Header.name).Nodup ∧ (∀ b ∈ block.bindings, '$' ∉ b.value) ∧
    (readHeaders other).toOption ≠ (readHeaders document).toOption

instance (document other : List Char) : Decidable (OrderMatters document other) :=
  inferInstanceAs (Decidable (∃ block ∈ headerBlock? document, ∃ block' ∈ headerBlock? other, _))

/-- The order counts where a name is the beginning of another one, where one comes to be out of a
value, where one begins inside of another one, and where one begins inside of itself. -/
theorem order_of_variables_matters :
    OrderMatters "---\n$a: x\n$ab: y\ntarget: $ab\n---\n".toList
        "---\n$ab: y\n$a: x\ntarget: $ab\n---\n".toList ∧
      OrderMatters "---\n$a: x\n$b: a\ntarget: $$b\n---\n".toList
        "---\n$b: a\n$a: x\ntarget: $$b\n---\n".toList ∧
      OrderMatters "---\n$a$: x\n$b: y\ntarget: $a$b\n---\n".toList
        "---\n$b: y\n$a$: x\ntarget: $a$b\n---\n".toList ∧
      OrderMatters "---\n$a$a: x\n$b: a\ntarget: $$b$a$a\n---\n".toList
        "---\n$b: a\n$a$a: x\ntarget: $$b$a$a\n---\n".toList := by
  decide +kernel

end Markup
end AgentDocs
