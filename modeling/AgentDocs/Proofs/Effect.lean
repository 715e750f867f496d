import Mathlib.Control.Monad.Basic
import Mathlib.Data.List.Forall2

/-! # Actions that answer or fail and change a state

`Moves R` says how the state may change, whether the action fails or not, and `Arrives R` how it
changes if there is an answer; `Yields Q` says what an answer is like; `Mirrors R` says that two
actions answer the same in states that are related. All are closed under sequencing, so that they
pass from the parts of an action to the whole of it. -/
namespace AgentDocs

theorem Except.exists_of_bind_ok {ε α β : Type} {x : Except ε α} {f : α → Except ε β} {b : β}
    (h : x >>= f = .ok b) : ∃ a, x = .ok a ∧ f a = .ok b := by
  cases x with
  | ok a => exact ⟨a, rfl, h⟩
  | error e => cases h

/-- Another form of the error makes no answer. -/
theorem Except.of_mapError_ok {ε δ α : Type} {x : Except δ α} {wrap : δ → ε} {a : α}
    (h : x.mapError wrap = .ok a) : x = .ok a := by
  cases x with
  | ok b => exact congrArg Except.ok (Except.ok.inj h)
  | error e => cases h

theorem Except.of_toOption {ε α : Type} {x : Except ε α} {a : α} (h : x.toOption = some a) :
    x = .ok a := by
  cases x with
  | ok b => exact congrArg Except.ok (Option.some.inj h)
  | error e => cases h

theorem exists_mem_of_forall₂ {α β : Type} {R : α → β → Prop} {as : List α} {bs : List β}
    (h : List.Forall₂ R as bs) {b : β} (hb : b ∈ bs) : ∃ a ∈ as, R a b := by
  induction h with
  | nil => cases hb
  | cons hab _ ih =>
    rcases List.mem_cons.1 hb with rfl | hb
    · exact ⟨_, List.mem_cons_self, hab⟩
    · obtain ⟨a, ha, hR⟩ := ih hb
      exact ⟨a, List.mem_cons_of_mem _ ha, hR⟩

theorem Except.mapM_eq_ok_iff {ε α β : Type} {f : α → Except ε β} {as : List α} {bs : List β} :
    as.mapM f = .ok bs ↔ List.Forall₂ (fun a b => f a = .ok b) as bs := by
  induction as generalizing bs with
  | nil =>
    rw [List.forall₂_nil_left_iff]
    exact ⟨fun h => (Except.ok.inj h).symm, fun h => h ▸ rfl⟩
  | cons a as ih =>
    rw [List.mapM_cons, List.forall₂_cons_left_iff]
    constructor
    · intro h
      obtain ⟨first, hfirst, h⟩ := exists_of_bind_ok h
      obtain ⟨rest, hrest, h⟩ := exists_of_bind_ok h
      cases h
      exact ⟨first, rest, hfirst, ih.1 hrest, rfl⟩
    · rintro ⟨first, rest, hfirst, hrest, rfl⟩
      rw [hfirst, ih.2 hrest]
      rfl

theorem Except.exists_of_mem_mapM {ε α β : Type} {f : α → Except ε β} {as : List α} {bs : List β}
    (h : as.mapM f = .ok bs) : ∀ b ∈ bs, ∃ a ∈ as, f a = .ok b :=
  fun _ => exists_mem_of_forall₂ (mapM_eq_ok_iff.1 h)

theorem Except.exists_mapM_error_iff {ε α β : Type} {f : α → Except ε β} {as : List α} :
    (∃ e, as.mapM f = .error e) ↔ ∃ a ∈ as, ∃ e, f a = .error e := by
  induction as with
  | nil => simp [pure, Except.pure]
  | cons a as ih =>
    rw [List.mapM_cons, List.exists_mem_cons_iff, ← ih]
    cases f a with
    | error e => simp [bind, Except.bind]
    | ok b => cases as.mapM f <;> simp [bind, Except.bind, pure, Except.pure]

/-- An action on a state of type `σ`. -/
abbrev Effect (σ ε α : Type) := ExceptT ε (StateM σ) α

namespace Effect
variable {σ ε α β : Type}

theorem bind_apply (x : Effect σ ε α) (f : α → Effect σ ε β) (s : σ) :
    (x >>= f) s = ExceptT.bindCont f (x s).1 (x s).2 := rfl

theorem bind_ok {x : Effect σ ε α} {f : α → Effect σ ε β} {s t : σ} {a : α}
    (h : x s = (.ok a, t)) : (x >>= f) s = f a t := by
  rw [bind_apply, h]
  rfl

theorem bind_error {x : Effect σ ε α} {f : α → Effect σ ε β} {s t : σ} {e : ε}
    (h : x s = (.error e, t)) : (x >>= f) s = (.error e, t) := by
  rw [bind_apply, h]
  rfl

/-- A sequence that answers went through an answer of its first action. -/
theorem exists_of_bind_ok {x : Effect σ ε α} {f : α → Effect σ ε β} {s u : σ} {b : β}
    (h : (x >>= f) s = (.ok b, u)) : ∃ a t, x s = (.ok a, t) ∧ f a t = (.ok b, u) := by
  cases hx : x s with
  | mk result t =>
    cases result with
    | ok a => exact ⟨a, t, rfl, (bind_ok hx).symm.trans h⟩
    | error e =>
      rw [bind_error hx] at h
      cases h

/-- A sequence fails in its first action or in the second one. -/
theorem of_bind_error {x : Effect σ ε α} {f : α → Effect σ ε β} {s u : σ} {e : ε}
    (h : (x >>= f) s = (.error e, u)) :
    x s = (.error e, u) ∨ ∃ a t, x s = (.ok a, t) ∧ f a t = (.error e, u) := by
  cases hx : x s with
  | mk result t =>
    cases result with
    | ok a => exact .inr ⟨a, t, rfl, (bind_ok hx).symm.trans h⟩
    | error e' =>
      rw [bind_error hx] at h
      cases h
      exact .inl rfl

/-- Each answer of a loop is the answer of one of its steps. -/
theorem exists_of_mem_mapM {γ : Type} {f : γ → Effect σ ε α} {cs : List γ} {as : List α} {s t : σ}
    (h : cs.mapM f s = (.ok as, t)) : ∀ a ∈ as, ∃ c s' t', f c s' = (.ok a, t') := by
  induction cs generalizing as s with
  | nil =>
    cases h
    simp
  | cons c cs ih =>
    rw [List.mapM_cons] at h
    obtain ⟨first, u, hfirst, h⟩ := exists_of_bind_ok h
    obtain ⟨rest, v, hrest, h⟩ := exists_of_bind_ok h
    cases h
    intro a ha
    rcases List.mem_cons.1 ha with rfl | ha
    · exact ⟨c, s, u, hfirst⟩
    · exact ih hrest a ha

/-! ## How the state changes -/

def Moves (R : σ → σ → Prop) (x : Effect σ ε α) : Prop := ∀ s, R s (x s).2

section Moves
variable {R : σ → σ → Prop} [Std.Refl R]

theorem moves_pure (a : α) : Moves R (pure a : Effect σ ε α) := fun s => Std.Refl.refl s

theorem moves_throw (e : ε) : Moves R (throw e : Effect σ ε α) := fun s => Std.Refl.refl s

theorem moves_get : Moves R (get : Effect σ ε σ) := fun s => Std.Refl.refl s

/-- An answer or a failure that is given does not change the state. -/
theorem moves_mk (result : Except ε α) :
    Moves R (ExceptT.mk (pure result) : Effect σ ε α) := fun s => Std.Refl.refl s

variable [Trans R R R]

omit [Std.Refl R] in
theorem Moves.bind {x : Effect σ ε α} {f : α → Effect σ ε β} (hx : Moves R x)
    (hf : ∀ a, Moves R (f a)) : Moves R (x >>= f) := by
  intro s
  have hs := hx s
  cases h : x s with
  | mk result t =>
    rw [h] at hs
    cases result with
    | ok a =>
      rw [bind_ok h]
      exact Trans.trans hs (hf a t)
    | error e =>
      rw [bind_error h]
      exact hs

theorem moves_mapM {γ : Type} {f : γ → Effect σ ε α} (h : ∀ c, Moves R (f c)) (cs : List γ) :
    Moves R (cs.mapM f) := by
  induction cs with
  | nil => exact moves_pure _
  | cons c cs ih =>
    rw [List.mapM_cons]
    exact (h c).bind fun _ => ih.bind fun _ => moves_pure _

theorem moves_foldlM {γ : Type} {f : α → γ → Effect σ ε α} (h : ∀ a c, Moves R (f a c))
    (a : α) (cs : List γ) : Moves R (cs.foldlM f a) := by
  induction cs generalizing a with
  | nil => exact moves_pure _
  | cons c cs ih => exact (h a c).bind fun b => ih b

end Moves

/-! ## How the state changes if there is an answer -/

def Arrives (R : σ → σ → Prop) (x : Effect σ ε α) : Prop := ∀ s a t, x s = (.ok a, t) → R s t

section Arrives
variable {R : σ → σ → Prop}

theorem Moves.arrives {x : Effect σ ε α} (h : Moves R x) : Arrives R x := by
  intro s a t hx
  have hs := h s
  rwa [hx] at hs

theorem Arrives.bind [Trans R R R] {x : Effect σ ε α} {f : α → Effect σ ε β} (hx : Arrives R x)
    (hf : ∀ a, Arrives R (f a)) : Arrives R (x >>= f) := by
  intro s b u hb
  obtain ⟨a, t, ha, hb⟩ := exists_of_bind_ok hb
  exact Trans.trans (hx s a t ha) (hf a t b u hb)

end Arrives

/-- A loop adds to what it makes: `R` is how an accumulator becomes more in a step, and `P` is what
a step brings, which stays when the accumulator becomes more. -/
theorem foldlM_adds {γ : Type} {R : α → α → Prop} {P : γ → α → Prop} {f : α → γ → Effect σ ε α}
    (hrefl : ∀ a, R a a) (htrans : ∀ a b c, R a b → R b c → R a c)
    (hkeep : ∀ c a b, P c a → R a b → P c b)
    (hstep : ∀ a c s b t, f a c s = (.ok b, t) → R a b ∧ P c b) {cs : List γ} {a b : α} {s t : σ}
    (h : cs.foldlM f a s = (.ok b, t)) : R a b ∧ ∀ c ∈ cs, P c b := by
  induction cs generalizing a s with
  | nil =>
    cases h
    exact ⟨hrefl _, by simp⟩
  | cons c cs ih =>
    rw [List.foldlM_cons] at h
    obtain ⟨a', s', hfirst, hrest⟩ := exists_of_bind_ok h
    obtain ⟨hR, hP⟩ := hstep a c s a' s' hfirst
    obtain ⟨hR', hP'⟩ := ih hrest
    refine ⟨htrans a a' b hR hR', fun d hd => ?_⟩
    rcases List.mem_cons.1 hd with rfl | hd
    · exact hkeep d a' b hP hR'
    · exact hP' d hd

/-- A loop answers with the answers of its steps, one for each. -/
theorem forall₂_of_mapM {γ : Type} {R : σ → σ → Prop} [Std.Refl R] [Trans R R R]
    {f : γ → Effect σ ε α} (hf : ∀ c, Moves R (f c)) {cs : List γ} {as : List α} {s t : σ}
    (h : cs.mapM f s = (.ok as, t)) :
    List.Forall₂ (fun c a => ∃ u v, R s u ∧ f c u = (.ok a, v)) cs as := by
  induction cs generalizing as s with
  | nil =>
    cases h
    exact .nil
  | cons c cs ih =>
    rw [List.mapM_cons] at h
    obtain ⟨first, u, hfirst, h⟩ := exists_of_bind_ok h
    obtain ⟨rest, v, hrest, h⟩ := exists_of_bind_ok h
    cases h
    have hu : R s u := (hf c).arrives s first u hfirst
    exact .cons ⟨s, u, Std.Refl.refl s, hfirst⟩
      ((ih hrest).imp fun _ _ ⟨u', v', hu', hv'⟩ => ⟨u', v', Trans.trans hu hu', hv'⟩)

/-! ## Two actions side by side -/

/-- Whether two actions that begin in related states answer the same and end in related states. -/
def Mirrors (R : σ → σ → Prop) (x y : Effect σ ε α) : Prop :=
  ∀ s t, R s t → (x s).1 = (y t).1 ∧ R (x s).2 (y t).2

section Mirrors
variable {R : σ → σ → Prop}

theorem mirrors_mk (result : Except ε α) :
    Mirrors R (ExceptT.mk (pure result) : Effect σ ε α) (ExceptT.mk (pure result)) :=
  fun _ _ h => ⟨rfl, h⟩

theorem mirrors_pure (a : α) : Mirrors R (pure a : Effect σ ε α) (pure a) := mirrors_mk (.ok a)

theorem mirrors_throw (e : ε) : Mirrors R (throw e : Effect σ ε α) (throw e) :=
  mirrors_mk (.error e)

/-- If one of the two answers, so does the other. -/
theorem Mirrors.exists_ok {x y : Effect σ ε α} (h : Mirrors R x y) {s t s' : σ} {a : α}
    (hR : R s t) (hx : x s = (.ok a, s')) : ∃ t', y t = (.ok a, t') ∧ R s' t' := by
  obtain ⟨hresult, hstate⟩ := h s t hR
  rw [hx] at hresult hstate
  exact ⟨(y t).2, Prod.ext hresult.symm rfl, hstate⟩

/-- What comes second matters for what the first action can answer. -/
theorem Mirrors.bind_of {x y : Effect σ ε α} {f g : α → Effect σ ε β} (h : Mirrors R x y)
    (hf : ∀ s t a, R s t → (x s).1 = .ok a → Mirrors R (f a) (g a)) :
    Mirrors R (x >>= f) (y >>= g) := by
  intro s t hR
  obtain ⟨hresult, hstate⟩ := h s t hR
  rw [bind_apply, bind_apply, ← hresult]
  cases hx : (x s).1 with
  | ok a => exact hf s t a hR hx _ _ hstate
  | error e => exact ⟨rfl, hstate⟩

theorem Mirrors.bind {x y : Effect σ ε α} {f g : α → Effect σ ε β} (h : Mirrors R x y)
    (hf : ∀ a, Mirrors R (f a) (g a)) : Mirrors R (x >>= f) (y >>= g) :=
  h.bind_of fun _ _ a _ _ => hf a

theorem mirrors_mapM {γ : Type} {f g : γ → Effect σ ε α} {cs : List γ}
    (h : ∀ c ∈ cs, Mirrors R (f c) (g c)) : Mirrors R (cs.mapM f) (cs.mapM g) := by
  induction cs with
  | nil => exact mirrors_pure _
  | cons c cs ih =>
    rw [List.mapM_cons, List.mapM_cons]
    refine (h c List.mem_cons_self).bind fun _ => ?_
    exact (ih fun d hd => h d (List.mem_cons_of_mem _ hd)).bind fun _ => mirrors_pure _

theorem mirrors_foldlM {γ : Type} {f g : α → γ → Effect σ ε α} {cs : List γ}
    (h : ∀ a, ∀ c ∈ cs, Mirrors R (f a c) (g a c)) (a : α) :
    Mirrors R (cs.foldlM f a) (cs.foldlM g a) := by
  induction cs generalizing a with
  | nil => exact mirrors_pure _
  | cons c cs ih =>
    rw [List.foldlM_cons, List.foldlM_cons]
    exact (h a c List.mem_cons_self).bind
      fun b => ih (fun a d hd => h a d (List.mem_cons_of_mem _ hd)) b

end Mirrors

/-! ## What is answered -/

def Yields (Q : α → Prop) (x : Effect σ ε α) : Prop := ∀ s a t, x s = (.ok a, t) → Q a

theorem yields_pure {Q : α → Prop} {a : α} (h : Q a) : Yields Q (pure a : Effect σ ε α) := by
  intro s b t hb
  cases hb
  exact h

theorem yields_mk {Q : α → Prop} {result : Except ε α} (h : ∀ a, result = .ok a → Q a) :
    Yields Q (ExceptT.mk (pure result) : Effect σ ε α) := by
  intro s a t ha
  exact h a (congrArg Prod.fst ha)

theorem yields_bind {Q : β → Prop} {x : Effect σ ε α} {f : α → Effect σ ε β}
    (h : ∀ a, Yields Q (f a)) : Yields Q (x >>= f) := by
  intro s b u hb
  obtain ⟨a, t, _, hf⟩ := exists_of_bind_ok hb
  exact h a t b u hf

theorem Yields.bind {P : α → Prop} {Q : β → Prop} {x : Effect σ ε α} {f : α → Effect σ ε β}
    (hx : Yields P x) (hf : ∀ a, P a → Yields Q (f a)) : Yields Q (x >>= f) := by
  intro s b u hb
  obtain ⟨a, t, ha, hf'⟩ := exists_of_bind_ok hb
  exact hf a (hx s a t ha) t b u hf'

theorem yields_foldlM {γ : Type} {Q : α → Prop} {f : α → γ → Effect σ ε α}
    (h : ∀ a c, Q a → Yields Q (f a c)) {a : α} (ha : Q a) (cs : List γ) :
    Yields Q (cs.foldlM f a) := by
  induction cs generalizing a with
  | nil => exact yields_pure ha
  | cons c cs ih => exact (h a c ha).bind fun b hb => ih hb

end Effect
end AgentDocs
