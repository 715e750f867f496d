import AgentDocs.Markup.Placeholder
import AgentDocs.Proofs.Text.Fields

/-! # Scanning a text for placeholders

Each reader leaves an end of what it was given, so a scan cuts a text up: what it finds stands in
the text one behind the other, each at the bytes of its own characters. -/
namespace AgentDocs.Markup
open Text

/-! ## What readers leave -/

theorem skipSpace_suffix (cs : List Char) : skipSpace cs <:+ cs := List.dropWhile_suffix _

theorem argument_suffix (cs : List Char) : (argument cs).2 <:+ cs := by
  unfold argument
  split
  · rename_i rest
    split
    · rename_i text after h
      rw [eq_of_splitOnce h]
      exact ⟨'"' :: text ++ ['"'], by simp⟩
    · exact List.nil_suffix
  · split
    · exact List.suffix_rfl
    · exact List.dropWhile_suffix _

theorem paddedArgument_suffix (cs : List Char) : (paddedArgument cs).2 <:+ cs :=
  (skipSpace_suffix _).trans (argument_suffix cs)

theorem arguments_suffix (cs : List Char) : (arguments cs).2 <:+ cs := by
  fun_induction arguments cs with
  | case1 => exact List.nil_suffix
  | case2 cs c rest hs => exact hs ▸ skipSpace_suffix cs
  | case3 cs c rest hs _ found tail ha more ih =>
    have htail : ',' :: tail <:+ c :: rest := by
      have := paddedArgument_suffix (c :: rest)
      rwa [ha] at this
    exact (ih.trans (List.suffix_cons _ _)).trans (htail.trans (hs ▸ skipSpace_suffix cs))
  | case4 cs c rest hs _ found tail _ ha =>
    have htail : tail <:+ c :: rest := by
      have := paddedArgument_suffix (c :: rest)
      rwa [ha] at this
    exact htail.trans (hs ▸ skipSpace_suffix cs)

theorem name?_suffix {cs name rest : List Char} (h : name? cs = some (name, rest)) :
    rest <:+ cs := by
  unfold name? at h
  dsimp only at h
  split at h
  · cases h
  · cases h
    exact (skipSpace_suffix _).trans ((List.dropWhile_suffix _).trans (skipSpace_suffix cs))

theorem close?_eq_some_iff {cs rest : List Char} :
    close? cs = some rest ↔ cs = '}' :: '}' :: rest := by
  unfold close?
  split <;> simp_all

theorem close?_suffix {cs rest : List Char} (h : close? cs = some rest) : rest <:+ cs :=
  ⟨['}', '}'], (close?_eq_some_iff.1 h).symm⟩

/-- A body is left at an end of its text. -/
def Leaves {α : Type} (body : List Char → Option (α × List Char)) : Prop :=
  ∀ cs a rest, body cs = some (a, rest) → rest <:+ cs

theorem leaves_variableBody? : Leaves variableBody? := by
  intro cs name rest h
  obtain ⟨⟨_, after⟩, hname, h⟩ := Option.bind_eq_some_iff.1 h
  obtain ⟨_, hclose, h⟩ := Option.bind_eq_some_iff.1 h
  cases h
  exact (close?_suffix hclose).trans (name?_suffix hname)

theorem leaves_snippetBody? : Leaves snippetBody? := by
  intro cs body rest h
  obtain ⟨⟨_, after⟩, hname, h⟩ := Option.bind_eq_some_iff.1 h
  obtain ⟨_, hclose, h⟩ := Option.bind_eq_some_iff.1 h
  cases h
  refine ((close?_suffix hclose).trans (skipSpace_suffix _)).trans (.trans ?_ (name?_suffix hname))
  split
  · exact (arguments_suffix _).trans (List.suffix_cons _ _)
  · exact List.suffix_rfl

/-! ## The scan -/

section
variable {α : Type} {body : List Char → Option (α × List Char)}
  {shrinks : ∀ {cs a rest}, body cs = some (a, rest) → rest.length ≤ cs.length}

/-- What a body reads at the beginning of a text, if braces open there. -/
def opened? (body : List Char → Option (α × List Char)) :
    List Char → Option (α × List Char)
  | '{' :: '{' :: inner => body inner
  | _ => none

theorem scan_found {at_ : Nat} {cs after : List Char} {a : α}
    (h : opened? body cs = some (a, after)) :
    scan body shrinks at_ cs = (a, ⟨at_, at_ + (width cs - width after)⟩) ::
      scan body shrinks (at_ + (width cs - width after)) after := by
  unfold opened? at h
  split at h
  · rename_i inner
    rw [scan.eq_def]
    dsimp only
    split
    · rename_i hb
      obtain ⟨rfl, rfl⟩ := Prod.mk.inj (Option.some.inj (h.symm.trans hb))
      rfl
    · rename_i hb
      cases h.symm.trans hb
  · cases h

theorem scan_skipped {at_ : Nat} {c : Char} {rest : List Char}
    (h : opened? body (c :: rest) = none) :
    scan body shrinks at_ (c :: rest) = scan body shrinks (at_ + c.utf8Size) rest := by
  rw [scan.eq_def]
  dsimp only
  split
  · rename_i hb
    split at hb
    · cases h.symm.trans hb
    · cases hb
  · rfl

/-- Where no brace stands nothing is found. -/
theorem scan_append {front : List Char} (hfront : '{' ∉ front) (at_ : Nat) (cs : List Char) :
    scan body shrinks at_ (front ++ cs) = scan body shrinks (at_ + width front) cs := by
  induction front generalizing at_ with
  | nil => rfl
  | cons c front ih =>
    rw [List.mem_cons, not_or] at hfront
    have hskip : opened? body (c :: (front ++ cs)) = none := by
      unfold opened?
      split
      · rename_i heq
        exact absurd (List.head_eq_of_cons_eq heq).symm hfront.1
      · rfl
    rw [List.cons_append, scan_skipped hskip, ih hfront.2, width, Nat.add_assoc]

end
end AgentDocs.Markup
