import AgentDocs.Command.Script
import AgentDocs.Markup.Span

/-! # What scripts do, whatever runs them

A contract says what a script may ask for and what the answers are like. A script meets it if it
asks for nothing else as long as the answers are as they should be; then `Q` holds of its result
and `E` of its error. -/
namespace AgentDocs

structure Contract where
  /-- What may be done. -/
  asks : Action → Prop
  /-- What is relied on. -/
  answers : (a : Action) → a.Answer → Prop

namespace Script
variable {ε δ α β : Type} {c c' : Contract} {Q : α → Prop} {E : ε → Prop}

def Meets (c : Contract) (Q : α → Prop) (E : ε → Prop) : Script ε α → Prop
  | done a => Q a
  | fail e => E e
  | act a next => c.asks a ∧ ∀ x, c.answers a x → (next x).Meets c Q E

theorem meets_pure {a : α} (h : Q a) : (pure a : Script ε α).Meets c Q E := h

theorem Meets.weaken {Q' : α → Prop} {E' : ε → Prop} {s : Script ε α} (h : s.Meets c Q E)
    (hQ : ∀ a, Q a → Q' a) (hE : ∀ e, E e → E' e) : s.Meets c Q' E' := by
  induction s with
  | done a => exact hQ a h
  | fail e => exact hE e h
  | act a next ih => exact ⟨h.1, fun x hx => ih x (h.2 x hx)⟩

/-- Where everything may be asked for, nothing is out of contract. -/
theorem meets_of_asks (h : ∀ a, c.asks a) (s : Script ε α) :
    s.Meets c (fun _ => True) fun _ => True := by
  induction s with
  | done a => trivial
  | fail e => trivial
  | act a next ih => exact ⟨h a, fun x _ => ih x⟩

/-- What is done within a contract is done within one that asks for less and relies on more. -/
theorem Meets.transfer {s : Script ε α} (h : s.Meets c Q E) (hasks : ∀ a, c.asks a → c'.asks a)
    (hanswers : ∀ a x, c'.answers a x → c.answers a x) : s.Meets c' Q E := by
  induction s with
  | done a => exact h
  | fail e => exact h
  | act a next ih => exact ⟨hasks a h.1, fun x hx => ih x (h.2 x (hanswers a x hx))⟩

theorem Meets.bind {Q' : β → Prop} {s : Script ε α} {f : α → Script ε β} (h : s.Meets c Q E)
    (hf : ∀ a, Q a → (f a).Meets c Q' E) : (s >>= f).Meets c Q' E := by
  change (s.bind f).Meets c Q' E
  induction s with
  | done a => exact hf a h
  | fail e => exact h
  | act a next ih => exact ⟨h.1, fun x hx => ih x (h.2 x hx)⟩

theorem Meets.mapError {wrap : δ → ε} {s : Script δ α} (h : s.Meets c Q fun e => E (wrap e)) :
    (s.mapError wrap).Meets c Q E := by
  induction s with
  | done a => exact h
  | fail e => exact h
  | act a next ih => exact ⟨h.1, fun x hx => ih x (h.2 x hx)⟩

/-- A text whose replacements meet a contract is replaced within it. -/
theorem meets_splice {ι : Type} {span : ι → Markup.Span} {items : List ι}
    {replace : ι → Script ε (Option (List Char))}
    (h : ∀ item ∈ items, (replace item).Meets c (fun _ => True) E) (text : List Char) :
    (Markup.splice span replace items text).Meets c (fun _ => True) E := by
  have hback : ∀ (items : List ι),
      (∀ item ∈ items, (replace item).Meets c (fun _ => True) E) → ∀ text done : List Char,
      (Markup.spliceBack span replace items text done).Meets c (fun _ => True) E := by
    intro items
    induction items with
    | nil => exact fun _ _ _ => trivial
    | cons item items ih =>
      intro hitems text done
      exact (hitems item List.mem_cons_self).bind fun _ _ =>
        ih (fun i hi => hitems i (List.mem_cons_of_mem _ hi)) _ _
  exact hback _ (fun item hi => h item (List.mem_reverse.1 hi)) _ _

end Script
end AgentDocs
