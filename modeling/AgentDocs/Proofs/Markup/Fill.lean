import AgentDocs.Markup.Header
import AgentDocs.Proofs.Text.Substitute
import Mathlib.Data.List.Find
import Mathlib.Data.List.Infix

/-! # All variables at once

Variables are bound one after another, each in what the ones before it left. Where no name runs
into another and none is left once all values are in place, that is the same as putting all values
in place at once. -/
namespace AgentDocs.Markup
open Text

/-- Puts the values of all variables in place of their names at once, from left to right. -/
def fill (bindings : List Header) : List Char → List Char
  | [] => []
  | c :: cs =>
    match bindings.find? fun b => decide (b.name <+: c :: cs) with
    | some b => b.value ++ fill bindings (cs.drop (b.name.length - 1))
    | none => c :: fill bindings cs
termination_by cs => cs.length
decreasing_by
  · rw [List.length_drop, List.length_cons]
    omega
  · exact Nat.lt_succ_self _

/-- Names that do not run into one another: no tail of a name begins a name or begins with one,
except for a name and itself. -/
def Apart (names : List (List Char)) : Prop :=
  ∀ v ∈ names, ∀ w ∈ names, ∀ tail ∈ v.tails, tail ≠ [] → tail <+: w ∨ w <+: tail →
    tail = v ∧ v = w

instance (names : List (List Char)) : Decidable (Apart names) :=
  inferInstanceAs (Decidable (∀ v ∈ names, ∀ w ∈ names, ∀ tail ∈ v.tails,
    tail ≠ [] → tail <+: w ∨ w <+: tail → tail = v ∧ v = w))

/-- Variables whose names stand apart and whose values bring in no name. -/
structure Independent (bindings : List Header) : Prop where
  isVariable : ∀ b ∈ bindings, b.isVariable = true
  apart : Apart (bindings.map Header.name)
  plain : ∀ b ∈ bindings, '$' ∉ b.value

variable {b : Header} {bindings : List Header}

theorem Independent.of_cons (h : Independent (b :: bindings)) : Independent bindings where
  isVariable := fun a ha => h.isVariable a (List.mem_cons_of_mem _ ha)
  apart := fun v hv w hw => h.apart v (List.mem_cons_of_mem _ hv) w (List.mem_cons_of_mem _ hw)
  plain := fun a ha => h.plain a (List.mem_cons_of_mem _ ha)

theorem Header.exists_name_eq_cons (h : b.isVariable = true) : ∃ tail, b.name = '$' :: tail := by
  cases hname : b.name with
  | nil =>
    rw [Header.isVariable, hname] at h
    cases h
  | cons c tail =>
    rw [Header.isVariable, hname] at h
    obtain rfl : c = '$' := by simpa using h
    exact ⟨tail, rfl⟩

theorem Independent.name_ne_nil (h : Independent bindings) (hb : b ∈ bindings) : b.name ≠ [] := by
  obtain ⟨tail, hname⟩ := Header.exists_name_eq_cons (h.isVariable b hb)
  rw [hname]
  exact List.cons_ne_nil _ _

/-- A name that begins where a tail of a name begins is that name. -/
theorem Independent.eq_of_prefix {v : Header} (h : Independent bindings) (hv : v ∈ bindings)
    (hb : b ∈ bindings) {tail rest : List Char} (htail : tail <:+ v.name) (hne : tail ≠ [])
    (hpre : b.name <+: tail ++ rest) : tail = v.name ∧ v.name = b.name :=
  h.apart v.name (List.mem_map_of_mem hv) b.name (List.mem_map_of_mem hb) tail
    ((List.mem_tails _ _).2 htail) hne
    (List.prefix_or_prefix_of_prefix (List.prefix_append tail rest) hpre)

/-- The variable bound to a name. -/
def bound? (bindings : List Header) (name : List Char) : Option Header :=
  bindings.find? fun b => decide (b.name = name)

theorem Independent.find?_prefix (h : Independent bindings) (hb : b ∈ bindings)
    (rest : List Char) :
    (bindings.find? fun a => decide (a.name <+: b.name ++ rest)) = bound? bindings b.name := by
  refine List.find?_congr fun a ha => ?_
  rw [decide_eq_decide]
  constructor
  · intro hpre
    exact (h.eq_of_prefix hb ha List.suffix_rfl (h.name_ne_nil hb) hpre).2.symm
  · intro hname
    rw [hname]
    exact List.prefix_append _ _

@[simp] theorem fill_nil (bindings : List Header) : fill bindings [] = [] := by rw [fill]

theorem fill_cons_of_none {c : Char} {cs : List Char}
    (h : ∀ b ∈ bindings, ¬b.name <+: c :: cs) : fill bindings (c :: cs) = c :: fill bindings cs := by
  have hnone : (bindings.find? fun b => decide (b.name <+: c :: cs)) = none :=
    List.find?_eq_none.2 fun b hb => by simpa using h b hb
  rw [fill, hnone]

theorem fill_no_names (text : List Char) : fill [] text = text := by
  induction text with
  | nil => rw [fill_nil]
  | cons c cs ih => rw [fill_cons_of_none (by simp), ih]

/-- A name gives the value that is bound to it. -/
theorem Independent.fill_name (h : Independent bindings) {name : List Char}
    (hbound : bound? bindings name = some b) (rest : List Char) :
    fill bindings (name ++ rest) = b.value ++ fill bindings rest := by
  have hb : b ∈ bindings := List.mem_of_find?_eq_some hbound
  obtain rfl : b.name = name := by simpa using List.find?_some hbound
  obtain ⟨tail, hname⟩ := Header.exists_name_eq_cons (h.isVariable b hb)
  have hfind := h.find?_prefix hb rest
  rw [hbound] at hfind
  rw [hname, List.cons_append] at hfind ⊢
  rw [fill, hfind]
  simp only [hname, List.length_cons, Nat.add_sub_cancel, List.drop_left]

theorem exists_bound?_of_mem {a : Header} (ha : a ∈ bindings) :
    ∃ b, bound? bindings b.name = some b ∧ b.name = a.name := by
  have hsome : (bound? bindings a.name).isSome := List.find?_isSome.2 ⟨a, ha, by simp⟩
  obtain ⟨b, hb⟩ := Option.isSome_iff_exists.1 hsome
  have hname : b.name = a.name := by simpa using List.find?_some hb
  exact ⟨b, by rw [hname]; exact hb, hname⟩

/-- A text goes on with a name or with a character at which none begins. -/
@[elab_as_elim]
theorem Independent.text_induction {P : List Char → Prop} (h : Independent bindings) (nil : P [])
    (name : ∀ b rest, bound? bindings b.name = some b → P rest → P (b.name ++ rest))
    (char : ∀ c cs, (∀ b ∈ bindings, ¬b.name <+: c :: cs) → P cs → P (c :: cs))
    (text : List Char) : P text := by
  induction hlength : text.length using Nat.strong_induction_on generalizing text with
  | _ n ih =>
    subst hlength
    cases text with
    | nil => exact nil
    | cons c cs =>
      by_cases hname : ∃ a ∈ bindings, a.name <+: c :: cs
      · obtain ⟨a, ha, rest, hrest⟩ := hname
        obtain ⟨b, hb, hba⟩ := exists_bound?_of_mem ha
        have hlt : rest.length < (c :: cs).length := by
          have := List.length_pos_of_ne_nil (h.name_ne_nil ha)
          rw [← hrest, List.length_append]
          omega
        rw [← hrest, ← hba]
        exact name b rest hb (ih _ hlt rest rfl)
      · exact char c cs (fun b hb hpre => hname ⟨b, hb, hpre⟩) (ih _ (Nat.lt_succ_self _) cs rfl)

/-- A text without the mark of variables stays as it is. -/
theorem Independent.fill_append_of_plain (h : Independent bindings) {front : List Char}
    (hfront : '$' ∉ front) (rest : List Char) :
    fill bindings (front ++ rest) = front ++ fill bindings rest := by
  induction front with
  | nil => rfl
  | cons c front ih =>
    have hnone : ∀ b ∈ bindings, ¬b.name <+: c :: (front ++ rest) := by
      intro b hb hpre
      obtain ⟨tail, hname⟩ := Header.exists_name_eq_cons (h.isVariable b hb)
      rw [hname, List.cons_prefix_cons] at hpre
      exact hfront (hpre.1 ▸ List.mem_cons_self)
    rw [List.cons_append, fill_cons_of_none hnone,
      ih fun hmem => hfront (List.mem_cons_of_mem _ hmem), List.cons_append]

/-- A text that begins with the end of a name still does once the variables are filled in. -/
theorem Independent.prefix_fill (h : Independent bindings) (hb : b ∈ bindings)
    {tail text : List Char} (htail : tail <:+ b.name) (hproper : tail ≠ b.name)
    (hpre : tail <+: text) : tail <+: fill bindings text := by
  induction text generalizing tail with
  | nil => rwa [fill_nil]
  | cons c cs ih =>
    cases tail with
    | nil => exact List.nil_prefix
    | cons d tail =>
      -- A name that begins here would begin inside of `b.name` or with all of it.
      have hnone : ∀ a ∈ bindings, ¬a.name <+: c :: cs := by
        intro a ha hname
        obtain ⟨rest, hrest⟩ := hpre
        rw [← hrest] at hname
        exact hproper (h.eq_of_prefix hb ha htail (List.cons_ne_nil _ _) hname).1
      rw [List.cons_prefix_cons] at hpre
      rw [fill_cons_of_none hnone, List.cons_prefix_cons]
      refine ⟨hpre.1, ih ((List.suffix_cons ..).trans htail) ?_ hpre.2⟩
      intro heq
      have := htail.length_le
      rw [← heq, List.length_cons] at this
      omega

/-- One step: binding a variable first leaves the same for the others to fill. -/
theorem Independent.fill_cons {v : Header} (h : Independent (v :: bindings)) {text : List Char}
    (hfilled : ∀ b ∈ bindings, ¬b.name <:+: fill (v :: bindings) text) :
    fill bindings (substitute v.name v.value text) = fill (v :: bindings) text := by
  have hv : v ∈ v :: bindings := List.mem_cons_self
  induction text using Independent.text_induction h with
  | nil => rw [substitute, fill_nil, fill_nil]
  | name b rest hb ih =>
    rw [h.fill_name hb] at hfilled ⊢
    have ih := ih fun a ha hin => hfilled a ha (hin.trans (List.suffix_append ..).isInfix)
    by_cases hname : v.name = b.name
    · obtain rfl : v = b := by simpa [bound?, hname] using hb
      rw [substitute_append_self (h.name_ne_nil hv),
        h.of_cons.fill_append_of_plain (h.plain v hv), ih]
    · have hbound : bound? bindings b.name = some b := by simpa [bound?, hname] using hb
      have hstays : ∀ tail, tail <:+ b.name → tail ≠ [] → ¬v.name <+: tail ++ rest :=
        fun tail htail hne hpre =>
          hname (h.eq_of_prefix (List.mem_of_find?_eq_some hb) hv htail hne hpre).2.symm
      rw [substitute_append hstays, h.of_cons.fill_name hbound, ih]
  | char c cs hnone ih =>
    rw [fill_cons_of_none hnone] at hfilled ⊢
    rw [substitute_cons_of_not_begins (hnone v hv)]
    have ih := ih fun a ha hin => hfilled a ha (hin.trans (List.suffix_cons ..).isInfix)
    rw [fill_cons_of_none, ih]
    -- A name that the value of `v` completes here would be left in the filled text.
    intro b hb hpre
    obtain ⟨tail, hname⟩ := Header.exists_name_eq_cons (h.of_cons.isVariable b hb)
    refine hfilled b hb (List.IsPrefix.isInfix ?_)
    rw [hname, List.cons_prefix_cons] at hpre ⊢
    refine ⟨hpre.1, ?_⟩
    rw [← ih]
    refine h.of_cons.prefix_fill hb (hname ▸ List.suffix_cons ..) ?_ hpre.2
    rw [hname]
    exact (List.cons_ne_self _ _).symm

/-- The whole run: binding the variables one after another is filling them in at once. -/
theorem Independent.foldl_substitute (h : Independent bindings) {text : List Char}
    (hfilled : ∀ b ∈ bindings, ¬b.name <:+: fill bindings text) :
    bindings.foldl (fun text b => substitute b.name b.value text) text = fill bindings text := by
  induction bindings generalizing text with
  | nil => exact (fill_no_names text).symm
  | cons v bindings ih =>
    have hrest : ∀ b ∈ bindings, ¬b.name <:+: fill (v :: bindings) text :=
      fun b hb => hfilled b (List.mem_cons_of_mem _ hb)
    have hstep := h.fill_cons hrest
    rw [← hstep] at hrest
    rw [List.foldl_cons, ih h.of_cons hrest, hstep]

/-- What is put in place of the names depends on what is bound to them only. -/
theorem Independent.fill_congr {bindings' : List Header} (h : Independent bindings)
    (h' : Independent bindings') (hbound : ∀ name, bound? bindings' name = bound? bindings name)
    (text : List Char) : fill bindings' text = fill bindings text := by
  induction text using Independent.text_induction h with
  | nil => rw [fill_nil, fill_nil]
  | name b rest hb ih => rw [h.fill_name hb, h'.fill_name ((hbound b.name).trans hb), ih]
  | char c cs hnone ih =>
    rw [fill_cons_of_none hnone, fill_cons_of_none, ih]
    intro b hb
    obtain ⟨a, ha, hname⟩ := exists_bound?_of_mem hb
    rw [hbound] at ha
    exact hname ▸ hnone a (List.mem_of_find?_eq_some ha)

end AgentDocs.Markup
