/-! # Loops

A loop takes a step for as long as its test holds. Nothing bounds the number of its turns, so that
whether it ends at all is a question of its own. -/
namespace AgentDocs

variable {State : Type} {again : State → Bool} {step : State → State}

/-- A loop that is entered in the first state comes to its end in the second. -/
inductive LoopEnds (again : State → Bool) (step : State → State) : State → State → Prop
  | stop {s : State} (h : again s = false) : LoopEnds again step s s
  | turn {s t : State} (h : again s = true) (rest : LoopEnds again step (step s) t) :
      LoopEnds again step s t

namespace LoopEnds

/-- A loop has no more than one end. -/
theorem unique {s t u : State} (ht : LoopEnds again step s t) (hu : LoopEnds again step s u) :
    t = u := by
  induction ht with
  | stop h =>
    cases hu with
    | stop => rfl
    | turn h' => rw [h] at h'; cases h'
  | turn h _ ih =>
    cases hu with
    | stop h' => rw [h] at h'; cases h'
    | turn _ rest => exact ih rest

section States
variable (states : Nat → State) (hstep : ∀ i, states (i + 1) = step (states i)) {n : Nat}
  (hagain : ∀ i < n, again (states i) = true)
include hstep hagain

/-- The first turns of a loop can be taken ahead of it. -/
theorem of_ahead {t : State} (h : LoopEnds again step (states n) t) :
    LoopEnds again step (states 0) t := by
  induction n with
  | zero => exact h
  | succ n ih =>
    refine ih (fun i hi => hagain i (Nat.lt_succ_of_lt hi)) (.turn (hagain n (Nat.lt_succ_self n)) ?_)
    rwa [← hstep]

/-- A loop ends in the first of its states in which the test fails, and in no other. -/
theorem iff_eq (hends : again (states n) = false) {t : State} :
    LoopEnds again step (states 0) t ↔ t = states n := by
  have hend : LoopEnds again step (states 0) (states n) := of_ahead states hstep hagain (.stop hends)
  exact ⟨fun h => h.unique hend, fun h => h ▸ hend⟩

end States
end LoopEnds
end AgentDocs
