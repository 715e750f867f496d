import AgentDocs.Proofs.Yaml.Block
import AgentDocs.Proofs.Yaml.Quoted

/-! # The tokens of written fields

Reading an entry takes three tokens: the word that turns out to be a key, the colon, which puts the
key's own token in front of it, and the scalar. Behind the scalar the lexer stands where it stood
before, at the beginning of the next entry. -/
namespace AgentDocs.Yaml

namespace Lexer
variable {s t : Lexer}

/-! ## Between tokens -/

/-- One round of skipping, where no comment begins: `n` gaps, and the end of the line if it comes
next. -/
theorem skipToToken_round {fuel n : Nat} {after : List Char} (hmark : s.at_.rest.head? ≠ some '\uFEFF')
    (hrest : s.at_.rest = List.replicate n ' ' ++ after)
    (hgap : after.head?.all (fun x => !(isGap x || x == '#')) = true) :
    s.skipToToken (fuel + 1) =
      if (s.at_.move n).atBreak then
        skipToToken fuel { s with
          at_ := (s.at_.move n).nextLine, keyAllowed := s.keyAllowed || s.flow == 0 }
      else { s with at_ := s.at_.move n } := by
  have hbom : (s.at_.index == 0 && s.at_.atChar '\uFEFF') = false := by
    simp [Cursor.atChar, hmark]
  have hmoved : s.at_.moveWhile (fun x => x == ' ' || (x == '\t' && (s.flow ≠ 0 || !s.keyAllowed)))
      = s.at_.move n := by
    have hbehind : after.head?.all (fun x => !(x == ' ' || (x == '\t' && (s.flow ≠ 0 || !s.keyAllowed))))
        = true := by
      cases after with
      | nil => rfl
      | cons x after =>
        simp only [List.head?_cons, Option.all_some, isGap, Bool.not_eq_true',
          Bool.or_eq_false_iff] at hgap
        simp [hgap]
    rw [Cursor.moveWhile_run hrest (fun x hx => by simp [List.eq_of_mem_replicate hx]) hbehind,
      List.length_replicate]
  have hcomment : (s.at_.move n).atChar '#' = false := by
    have hbehind : (s.at_.move n).rest = after := by simp [hrest]
    rw [Cursor.atChar, hbehind]
    cases after with
    | nil => rfl
    | cons x after =>
      have hsign : x ≠ '#' := by
        rintro rfl
        simp at hgap
      simpa using hsign
  simp only [skipToToken, hbom, hmoved, hcomment, Bool.false_eq_true, if_false]

/-- The lexer in a mapping that is not indented, or in front of it; no key waits for its colon. -/
def between (c : Cursor) (tokens : List Token) (inside allowed : Bool) : Lexer :=
  ⟨c, tokens.toArray, 0, if inside then 0 else -1, if inside then [-1] else [], none, [], allowed,
    false⟩

/-- The next token stands where the lexer has skipped to: a word at the beginning of a line, or the
end of the text. -/
def Comes (s : Lexer) (tokens : List Token) (inside : Bool) (text : List Char) : Prop :=
  ∃ c allowed, s.skipToToken (s.at_.rest.length + 1) = between c tokens inside allowed ∧ c.rest = text ∧
    (text ≠ [] → c.column = 0 ∧ allowed = true)

/-- Whether a text is at its end or goes on with a letter. -/
def startsLetter (text : List Char) : Prop := ∀ x ∈ text.head?, x.isAlpha = true

/-- A letter is none of the characters that are not letters. -/
theorem notMem_of_isAlpha {x : Char} (h : x.isAlpha = true) (others : List Char)
    (hothers : others.any Char.isAlpha = false) : x ∉ others := fun hx => by
  have hx' := List.any_eq_false.1 hothers x hx
  exact hx' h

theorem isInner_of_isAlpha {x : Char} (h : x.isAlpha = true) : isInner x = true := by
  have hnot := notMem_of_isAlpha h [' ', '\t', '\n', '\r', '\u0085', '\u2028', '\u2029'] (by decide)
  simp only [List.mem_cons, List.not_mem_nil, or_false, not_or] at hnot
  simp [isInner, isGap, isBreak, hnot]

theorem startsWord_of_startsLetter {text : List Char} (h : startsLetter text) :
    startsWord text = true := by
  cases text with
  | nil => rfl
  | cons x text => exact isInner_of_isAlpha (h x rfl)

/-- A letter is neither a gap nor one of the signs that are passed over. -/
theorem stays_of_startsLetter {text : List Char} (h : startsLetter text) :
    text.head? ≠ some '\uFEFF' ∧ text.head?.all (fun x => !(isGap x || x == '#')) = true := by
  cases text with
  | nil => simp
  | cons x text =>
    have hx := h x rfl
    have hnot := notMem_of_isAlpha hx [' ', '\t', '#', '\uFEFF'] (by decide)
    simp only [List.mem_cons, List.not_mem_nil, or_false, not_or] at hnot
    simp [isGap, hnot]

/-- At the beginning of a line nothing is skipped. -/
theorem skip_line {c : Cursor} {tokens : List Token} {inside allowed : Bool} (h : startsLetter c.rest)
    (fuel : Nat) :
    (between c tokens inside allowed).skipToToken (fuel + 1) = between c tokens inside allowed := by
  obtain ⟨hmark, hgap⟩ := stays_of_startsLetter h
  have hround := @skipToToken_round (between c tokens inside allowed) fuel 0 c.rest hmark rfl hgap
  have hbreak : c.atBreak = false := by
    rw [Cursor.atBreak]
    cases hrest : c.rest with
    | nil => rfl
    | cons x rest =>
      have hx := isInner_of_isAlpha (h x (by rw [hrest]; rfl))
      simp only [isInner, Bool.and_eq_true, Bool.not_eq_true'] at hx
      exact hx.2
  rw [hround, Cursor.move_zero]
  exact if_neg (by rw [show (between c tokens inside allowed).at_.atBreak = false from hbreak]; decide)

theorem comes_line {c : Cursor} {tokens : List Token} {inside allowed : Bool}
    (h : startsLetter c.rest) (hline : c.rest ≠ [] → c.column = 0 ∧ allowed = true) :
    Comes (between c tokens inside allowed) tokens inside c.rest :=
  ⟨c, allowed, skip_line h _, rfl, hline⟩

/-- At the end of a line the lexer goes on to the next. -/
theorem comes_ends {c : Cursor} {tokens : List Token} {inside allowed : Bool} {after below : List Char}
    (hends : Ends after below) (hrest : c.rest = after) (h : startsLetter below) :
    Comes (between c tokens inside allowed) tokens inside below := by
  cases hends with
  | text =>
    rw [← hrest] at h ⊢
    exact comes_line h (by simp [hrest])
  | line =>
    have hround := @skipToToken_round (between c tokens inside allowed) (below.length + 1) 0
      ('\n' :: below) (by simp [between, hrest]) hrest rfl
    have hnext : c.nextLine = ⟨below, c.index + 1, c.line + 1, 0⟩ :=
      congrArg Prod.snd (Cursor.breakLine_cons hrest (by decide) (by decide))
    have hbreak : ((between c tokens inside allowed).at_.move 0).atBreak = true := by
      simp [between, Cursor.atBreak, hrest, isBreak]
    have hlength : (between c tokens inside allowed).at_.rest.length + 1 = below.length + 1 + 1 :=
      congrArg (fun rest => rest.length + 1) hrest
    refine ⟨c.nextLine, true, ?_, by rw [hnext], fun _ => ⟨by rw [hnext], rfl⟩⟩
    rw [hlength, hround, if_pos hbreak, Cursor.move_zero]
    have hallowed : (allowed || (0 : Nat) == 0) = true := by simp
    exact (congrArg (fun allowed => skipToToken (below.length + 1)
      (between c.nextLine tokens inside allowed)) hallowed).trans
        (skip_line (by rw [hnext]; exact h) below.length)

/-! ## Fetching -/

@[simp] theorem expireKeys_between (c : Cursor) (tokens : List Token) (inside allowed : Bool) :
    (between c tokens inside allowed).expireKeys = some (between c tokens inside allowed) := rfl

@[simp] theorem unroll_between (c : Cursor) (tokens : List Token) (inside allowed : Bool) (n : Nat) :
    (between c tokens inside allowed).unroll n = between c tokens inside allowed := by
  have hn : ¬ (n : Int) < 0 := by omega
  cases inside <;> simp [unroll, between, closeBlocks, hn]

/-- A plain scalar begins where no indicator stands. -/
theorem fetch_plain {c : Cursor} {tokens : List Token} {inside allowed : Bool} {x : Char}
    {rest : List Char} (hskip : s.skipToToken (s.at_.rest.length + 1) = between c tokens inside allowed)
    (hrest : c.rest = x :: rest) (hx : isInner x = true)
    (hleads : leadsIndicator x (endsWord rest) = false) (hmarker : c.atMarker = false) :
    s.fetch = (between c tokens inside allowed).fetchPlain := by
  have hgap : isGap x = false := by
    simp only [isInner, Bool.and_eq_true, Bool.not_eq_true'] at hx
    exact hx.1
  have hflow : (between c tokens inside allowed).flow = 0 := rfl
  have hat : (between c tokens inside allowed).at_ = c := rfl
  simp only [leadsIndicator, Bool.or_eq_false_iff] at hleads
  obtain ⟨hsigns, hwords⟩ := hleads
  have hnot : x ≠ '#' ∧ x ≠ ',' ∧ x ≠ '[' ∧ x ≠ ']' ∧ x ≠ '\x7b' ∧ x ≠ '\x7d' ∧ x ≠ '&' ∧ x ≠ '*' ∧
      x ≠ '!' ∧ x ≠ '|' ∧ x ≠ '>' ∧ x ≠ '\'' ∧ x ≠ '"' ∧ x ≠ '%' ∧ x ≠ '@' ∧ x ≠ '\x60' := by simpa using hsigns
  have hplain : isIndicator x = false ∨ (x = '-' ∨ x = '?' ∨ x = ':') := by
    by_cases h : x = '-' ∨ x = '?' ∨ x = ':'
    · exact .inr h
    · simp only [not_or] at h
      exact .inl (by simp [isIndicator, hnot, h])
  rw [fetch, hskip, expireKeys_between]
  simp only [Option.bind_eq_bind, Option.bind_some, hat, unroll_between, hrest, hmarker, hflow]
  cases hend : endsWord rest with
  | true =>
    have hwords' : x ≠ '-' ∧ x ≠ '?' ∧ x ≠ ':' := by
      simp only [hend, Bool.and_true, Bool.or_eq_false_iff, beq_eq_false_iff_ne] at hwords
      exact ⟨hwords.2, hwords.1.1, hwords.1.2⟩
    have hindicator := hplain.resolve_right (by simp [hwords'])
    simp [hnot, hwords', hgap, hindicator]
  | false =>
    rcases hplain with hindicator | rfl | rfl | rfl
    · simp [hnot, hgap, hindicator]
    · cases rest with
      | nil => cases hend
      | cons y rest =>
        have hy : isGap y = false := (Bool.or_eq_false_iff.1 hend).1
        simp [hy]
    · simp
    · simp

/-- A quoted scalar begins at its quote. -/
theorem fetch_quoted {c : Cursor} {tokens : List Token} {inside allowed single : Bool} {rest : List Char}
    (hskip : s.skipToToken (s.at_.rest.length + 1) = between c tokens inside allowed)
    (hrest : c.rest = quoteMark single :: rest) (hmarker : c.atMarker = false) :
    s.fetch = (between c tokens inside allowed).fetchInline fun c =>
      (quotedScalar single (c.move 1)).map fun (text, c) => (.scalar text false, c) := by
  have hflow : (between c tokens inside allowed).flow = 0 := rfl
  have hat : (between c tokens inside allowed).at_ = c := rfl
  rw [fetch, hskip, expireKeys_between]
  simp only [Option.bind_eq_bind, Option.bind_some, hat, unroll_between, hrest, hmarker, hflow]
  cases single <;> simp [quoteMark]

/-- A literal block begins at its `|`. -/
theorem fetch_literal {c : Cursor} {tokens : List Token} {inside allowed : Bool} {rest : List Char}
    (hskip : s.skipToToken (s.at_.rest.length + 1) = between c tokens inside allowed)
    (hrest : c.rest = '|' :: rest) (hmarker : c.atMarker = false) :
    s.fetch = (between c tokens inside allowed).fetchBlockScalar true := by
  have hflow : (between c tokens inside allowed).flow = 0 := rfl
  have hat : (between c tokens inside allowed).at_ = c := rfl
  rw [fetch, hskip, expireKeys_between]
  simp only [Option.bind_eq_bind, Option.bind_some, hat, unroll_between, hrest, hmarker, hflow]
  simp

/-! ## Values -/

/-- What follows a value: nothing or the end of its line and the next entry, or the next entry alone
where the value ended its line. -/
def Closes (text after below : List Char) : Prop :=
  startsLetter below ∧ if endsLine text then after = below else Ends after below

theorem exists_scalarText {text : List Char} :
    ∃ x rest, scalarText text = x :: rest ∧ isInner x = true ∧ x ≠ '#' := by
  rw [scalarText]
  cases hstyle : styleOf text with
  | plain =>
    obtain ⟨x, rest, rfl, hx⟩ := (words_of_admitsPlain (ne_nil_of_plain hstyle)
      (plain_style hstyle).2).exists_cons
    exact ⟨x, rest, rfl, hx⟩
  | singleQuoted => exact ⟨'\'', _, rfl, by decide, by decide⟩
  | doubleQuoted => exact ⟨'"', _, rfl, by decide, by decide⟩
  | literal => exact ⟨'|', _, rfl, by decide, by decide⟩

/-- The space in front of a value is skipped. -/
theorem skip_space {c : Cursor} {tokens : List Token} {inside allowed : Bool} {text after : List Char}
    (hrest : c.rest = ' ' :: (scalarText text ++ after)) (fuel : Nat) :
    (between c tokens inside allowed).skipToToken (fuel + 1)
      = between (c.move 1) tokens inside allowed := by
  obtain ⟨x, rest, hscalar, hx, hsign⟩ := @exists_scalarText text
  simp only [isInner, Bool.and_eq_true, Bool.not_eq_true'] at hx
  rw [hscalar] at hrest
  have hround := @skipToToken_round (between c tokens inside allowed) fuel 1 (x :: (rest ++ after))
    (by simp [between, hrest]) (by simp [between, hrest]) (by simp [hx, hsign])
  have hbreak : ((between c tokens inside allowed).at_.move 1).atBreak = false := by
    simp [between, Cursor.atBreak, hrest, hx]
  rw [hround, if_neg (by rw [hbreak]; decide)]
  rfl

theorem ending_eq_strip (text : List Char) :
    ending text = .strip ↔ (shape text).trailingBreak = false := by
  obtain rfl | ⟨front, c, rfl⟩ := List.eq_nil_or_concat text
  · decide
  · have hlast : (shape (front ++ [c])).trailingBreak = isBreak c := by simp [shape]
    rw [List.concat_eq_append, hlast, ending, List.reverse_append]
    cases front.reverse with
    | nil => cases hc : isBreak c <;> simp [endingOf, hc]
    | cons d tail => cases hc : isBreak c <;> cases hd : isBreak d <;> simp [endingOf, hc, hd]

/-- The character in front of a plain text is no indicator, whatever follows the text. -/
theorem leads_of_admitsPlain {x : Char} {rest : List Char} (h : (shape (x :: rest)).admitsPlain = true)
    (after : List Char) : leadsIndicator x (endsWord (rest ++ after)) = false := by
  simp only [Shape.admitsPlain, shape, Bool.not_eq_true', Bool.or_eq_false_iff] at h
  have hleads : leadsIndicator x (endsWord rest) = false := h.1.1.1.1.1.1.1.2
  cases rest with
  | nil =>
    cases hend : endsWord ([] ++ after) with
    | true => exact hleads
    | false =>
      simp only [leadsIndicator, Bool.or_eq_false_iff] at hleads ⊢
      exact ⟨hleads.1, Bool.and_false _⟩
  | cons y rest => exact hleads

theorem fetch_plain_value {text after below : List Char} (hstyle : styleOf text = .plain)
    (hbelow : startsLetter below) (hends : Ends after below) {c : Cursor} {tokens : List Token}
    (hcolumn : 0 < c.column) (hrest : c.rest = text ++ after)
    (hskip : s.skipToToken (s.at_.rest.length + 1) = between c tokens true false) :
    ∃ t, s.fetch = some t ∧ t.finished = false ∧
      Comes t (tokens ++ [.scalar (String.ofList text) true]) true below := by
  obtain ⟨-, hadmits⟩ := plain_style hstyle
  have hwords := words_of_admitsPlain (ne_nil_of_plain hstyle) hadmits
  obtain ⟨d, broken, hread, hd, hline⟩ := plainScalar_append hwords hends hcolumn hrest
  obtain ⟨x, rest, rfl, hx, -⟩ := hwords.exists_cons
  have hfetch := fetch_plain hskip hrest hx (leads_of_admitsPlain hadmits after)
    (Cursor.atMarker_of_column_pos hcolumn)
  have hstate : s.fetch
      = some (between d (tokens ++ [.scalar (String.ofList (x :: rest)) true]) true broken) := by
    rw [hfetch, fetchPlain]
    have hread' : plainScalar ((between c tokens true false).flow ≠ 0)
        ((between c tokens true false).indent + 1) (between c tokens true false).at_
          = some (String.ofList (x :: rest), d, broken) := hread
    simp [saveKey, between, push] at hread' ⊢
    rw [hread']
    rfl
  subst hd
  exact ⟨_, hstate, rfl, comes_line hbelow hline⟩

theorem fetch_quoted_value {single : Bool} {text after below : List Char} (hpieces : Pieces single text)
    (hbelow : startsLetter below) (hends : Ends after below) {c : Cursor} {tokens : List Token}
    (hcolumn : 0 < c.column)
    (hrest : c.rest = quoteMark single :: (betweenQuotes single false text ++ quoteMark single :: after))
    (hskip : s.skipToToken (s.at_.rest.length + 1) = between c tokens true false) :
    ∃ t, s.fetch = some t ∧ t.finished = false ∧
      Comes t (tokens ++ [.scalar (String.ofList text) false]) true below := by
  have hafter : single = true → after.head? ≠ some '\'' := by
    intro _
    cases hends <;> simp
  obtain ⟨d, hread, hd⟩ := @quotedScalar_append single text after hpieces hafter (c.move 1)
    (by rw [Cursor.column_move]; omega) (by simp [hrest])
  have hstate : s.fetch
      = some (between d (tokens ++ [.scalar (String.ofList text) false]) true false) := by
    rw [fetch_quoted hskip hrest (Cursor.atMarker_of_column_pos hcolumn), fetchInline]
    simp [saveKey, between, push, hread]
  exact ⟨_, hstate, rfl, comes_ends hends hd hbelow⟩

theorem fetch_literal_value {text after below : List Char} (hstyle : styleOf text = .literal)
    (hcloses : Closes text after below) {c : Cursor} {tokens : List Token} (hcolumn : 0 < c.column)
    (hrest : c.rest = '|' :: (blockHead text ++ '\n' :: (blockText true text ++ after)))
    (hskip : s.skipToToken (s.at_.rest.length + 1) = between c tokens true false) :
    ∃ t, s.fetch = some t ∧ t.finished = false ∧
      Comes t (tokens ++ [.scalar (String.ofList text) false]) true below := by
  obtain ⟨hbelow, hclose⟩ := hcloses
  have hfollows : Follows text after below := by
    rw [Follows]
    cases htrail : (shape text).trailingBreak with
    | false =>
      rw [(ending_eq_strip text).2 htrail]
      simpa [endsLine, hstyle, htrail] using hclose
    | true =>
      have hnot : ending text ≠ .strip := fun h => by
        rw [(ending_eq_strip text).1 h] at htrail
        cases htrail
      have hsame : after = below := by simpa [endsLine, hstyle, htrail] using hclose
      cases hend : ending text with
      | strip => exact absurd hend hnot
      | clip => exact ⟨hsame, startsWord_of_startsLetter hbelow⟩
      | keep => exact ⟨hsame, startsWord_of_startsLetter hbelow⟩
  obtain ⟨hne, hadmits⟩ := literal_style hstyle
  obtain ⟨d, hread, hd, hline⟩ := @blockScalar_append text after below hne hadmits hfollows (c.move 1)
    (by simp [hrest])
  have hstate : s.fetch
      = some (between d (tokens ++ [.scalar (String.ofList text) false]) true true) := by
    rw [fetch_literal hskip hrest (Cursor.atMarker_of_column_pos hcolumn), fetchBlockScalar]
    simp [dropKey, between, push, hread]
  subst hd
  exact ⟨_, hstate, rfl, comes_line hbelow fun h => ⟨hline h, rfl⟩⟩

/-- The token of a value. -/
def valueToken (text : List Char) : Token := .scalar (String.ofList text) (styleOf text == .plain)

/-- Reading a value: its token is added, and the next entry comes. -/
theorem fetch_value {text after below : List Char} (hcloses : Closes text after below) {c : Cursor}
    {tokens : List Token} (hcolumn : 0 < c.column)
    (hrest : c.rest = ' ' :: (scalarText text ++ after)) :
    ∃ s, (between c tokens true false).fetch = some s ∧ s.finished = false ∧
      Comes s (tokens ++ [valueToken text]) true below := by
  have hskip := @skip_space c tokens true false text after hrest
    (between c tokens true false).at_.rest.length
  have hmoved : (c.move 1).rest = scalarText text ++ after := by simp [hrest]
  have hcolumn' : 0 < (c.move 1).column := by
    rw [Cursor.column_move]
    omega
  have hends : styleOf text ≠ .literal → Ends after below := fun hstyle => by
    simpa [endsLine, hstyle] using hcloses.2
  rw [scalarText] at hmoved
  rw [valueToken]
  cases hstyle : styleOf text with
  | plain =>
    rw [hstyle] at hmoved
    exact fetch_plain_value hstyle hcloses.1 (hends (by simp [hstyle])) hcolumn' hmoved hskip
  | singleQuoted =>
    obtain ⟨hfeed, hadmits⟩ := single_style hstyle
    rw [hstyle] at hmoved
    exact @fetch_quoted_value _ true _ _ _ (calm_of_admitsSingle hfeed hadmits).pieces hcloses.1
      (hends (by simp [hstyle])) _ _ hcolumn' (by simpa [quoteMark] using hmoved) hskip
  | doubleQuoted =>
    rw [hstyle] at hmoved
    exact @fetch_quoted_value _ false _ _ _ (pieces_double text) hcloses.1
      (hends (by simp [hstyle])) _ _ hcolumn' (by simpa [quoteMark] using hmoved) hskip
  | literal =>
    rw [hstyle] at hmoved
    exact fetch_literal_value hstyle hcloses hcolumn' (by simpa using hmoved) hskip

/-! ## Keys -/

/-- The lexer behind a word that began at `start` and may be a key. -/
def waiting (start c : Cursor) (tokens : List Token) (word : String) (inside : Bool) : Lexer :=
  { between c (tokens ++ [.scalar word true]) inside false with
    key := some ⟨tokens.length, start, inside⟩ }

theorem isWord_of_isName {key : String} (h : IsName key) : IsWord key.toList := by
  have hne := ne_nil_of_plain h.2.1
  refine ⟨fun c hc => isInner_of_isAlpha (h.1 c hc), ?_, fun hlast => ?_⟩
  · obtain ⟨x, rest, hkey⟩ := List.exists_cons_of_ne_nil hne
    have hx := h.1 x (by rw [hkey]; exact List.mem_cons_self)
    have hsign := notMem_of_isAlpha hx ['#'] (by decide)
    rw [hkey]
    simpa using hsign
  · have hcolon := h.1 ':' (List.mem_of_getLast? hlast)
    revert hcolon
    decide

/-- Reading the word that turns out to be a key. -/
theorem fetch_key {key : String} (h : IsName key) {tokens : List Token} {inside : Bool}
    {after : List Char} (hafter : endsWord after = true)
    (hcomes : Comes s tokens inside (key.toList ++ ':' :: after)) :
    ∃ c : Cursor, c.column = 0 ∧ c.rest = key.toList ++ ':' :: after ∧
      s.fetch = some (waiting c (c.move key.toList.length) tokens key inside) := by
  obtain ⟨c, allowed, hskip, hrest, hline⟩ := hcomes
  have hword := isWord_of_isName h
  obtain ⟨x, rest, hkey, hx, -⟩ := hword.exists_cons
  obtain ⟨hcolumn, rfl⟩ := hline (by rw [hkey]; simp)
  have hletter := h.1 x (by rw [hkey]; exact List.mem_cons_self)
  have hhead : c.rest = x :: (rest ++ ':' :: after) := by rw [hrest, hkey]; rfl
  have hmarker : c.atMarker = false := by
    have hnot := notMem_of_isAlpha hletter ['-', '.'] (by decide)
    simp only [List.mem_cons, List.not_mem_nil, or_false, not_or] at hnot
    rw [Cursor.atMarker, hhead]
    split <;> simp_all
  have hleads : leadsIndicator x (endsWord (rest ++ ':' :: after)) = false := by
    have hsign := notMem_of_isAlpha hletter "#,[]\x7b\x7d&*!|>'\"%@\x60".toList (by decide)
    have hnot := notMem_of_isAlpha hletter ['?', ':', '-'] (by decide)
    simp only [List.mem_cons, List.not_mem_nil, or_false, not_or] at hnot
    have hcontains : "#,[]\x7b\x7d&*!|>'\"%@\x60".toList.contains x = false := by simpa using hsign
    simp only [leadsIndicator, hcontains]
    simp [hnot]
  have hread : ∀ indent : Int, plainScalar false indent c
      = some (String.ofList key.toList, c.move key.toList.length, false) := fun indent =>
    plainScalar_key hword hafter hmarker hrest
  refine ⟨c, hcolumn, hrest, ?_⟩
  rw [fetch_plain hskip hhead hx hleads hmarker, fetchPlain]
  cases inside <;> simp [saveKey, dropKey, between, push, waiting, hread, hcolumn]

theorem insert_toArray (tokens more : List Token) (t : Token) :
    (tokens ++ more).toArray.insertIdxIfInBounds tokens.length t = (tokens ++ t :: more).toArray := by
  have hbound : tokens.length ≤ (tokens ++ more).toArray.size := by simp
  have hinsert : (tokens ++ more).insertIdx tokens.length t = tokens ++ t :: more := by
    induction tokens with
    | nil => rfl
    | cons u tokens ih => exact congrArg (u :: ·) (ih (by simp))
  rw [Array.insertIdxIfInBounds, dif_pos hbound, List.insertIdx_toArray, hinsert]

/-- What opens a mapping in front of its first entry. -/
def opening (inside : Bool) : List Token := if inside then [] else [.blockMappingStart]

/-- At its colon the word becomes a key. -/
theorem fetch_colon {start c : Cursor} {tokens : List Token} {word : String} {inside : Bool}
    {after : List Char} (hstart : start.column = 0) (hline : c.line = start.line)
    (hnear : c.index ≤ start.index + 1024) (hcolumn : 0 < c.column) (hafter : endsWord after = true)
    (hrest : c.rest = ':' :: after) :
    (waiting start c tokens word inside).fetch = some (between (c.move 1)
      (tokens ++ opening inside ++ [.key, .scalar word true, .value]) true false) := by
  have hround := @skipToToken_round (waiting start c tokens word inside) c.rest.length 0 (':' :: after)
    (by simp [waiting, between, hrest]) hrest rfl
  have hstay : (waiting start c tokens word inside).skipToToken
      ((waiting start c tokens word inside).at_.rest.length + 1)
        = waiting start c tokens word inside := by
    refine hround.trans (if_neg ?_)
    simp [waiting, between, Cursor.atBreak, hrest, isBreak]
  have hkeys : (waiting start c tokens word inside).expireKeys
      = some (waiting start c tokens word inside) := by
    have hsame : ¬ start.line < c.line := by omega
    have hclose : ¬ start.index + 1024 < c.index := by omega
    simp [expireKeys, waiting, between, expire, hsame, hclose]
  have hunroll : (waiting start c tokens word inside).unroll c.column
      = waiting start c tokens word inside := by
    have hn : ¬ (c.column : Int) < 0 := by omega
    cases inside <;> simp [unroll, waiting, between, closeBlocks, hn]
  have hmarker := Cursor.atMarker_of_column_pos hcolumn
  have hat : (waiting start c tokens word inside).at_ = c := rfl
  have hflow : (waiting start c tokens word inside).flow = 0 := rfl
  have hvalue : (waiting start c tokens word inside).fetchValue = some (between (c.move 1)
      (tokens ++ opening inside ++ [.key, .scalar word true, .value]) true false) := by
    have hkey := insert_toArray tokens [.scalar word true] .key
    have hopen := insert_toArray tokens [.key, .scalar word true] .blockMappingStart
    cases inside <;>
      simp [fetchValue, waiting, between, roll, single, push, hstart, opening, hkey, hopen]
  rw [fetch, hstay, hkeys]
  simp only [Option.bind_eq_bind, Option.bind_some, hat, hunroll, hrest, hmarker, hflow]
  simp [hafter, hvalue]

/-! ## Entries -/

theorem run_step {fuel : Nat} (hfetch : s.fetch = some t) (hmore : t.finished = false) :
    run (fuel + 1) s = run fuel t := by
  simp [run, hfetch, hmore]

/-- The tokens of a field. -/
def entryTokens (field : String × String) : List Token :=
  [.key, .scalar field.1 true, .value, valueToken field.2.toList]

theorem length_le_width (cs : List Char) : cs.length ≤ Text.width cs := by
  induction cs with
  | nil => exact Nat.zero_le _
  | cons c cs ih =>
    have hpos := c.utf8Size_pos
    rw [Text.width, List.length_cons]
    omega

/-- Reading an entry: three tokens are fetched, four are added, and the next entry comes. -/
theorem run_entry {field : String × String} (hname : IsName field.1) {after below : List Char}
    (hcloses : Closes field.2.toList after below) {tokens : List Token} {inside : Bool}
    (hcomes : Comes s tokens inside
      (field.1.toList ++ ':' :: ' ' :: (scalarText field.2.toList ++ after))) :
    ∃ t, (∀ fuel, run (fuel + 3) s = run fuel t) ∧
      Comes t (tokens ++ opening inside ++ entryTokens field) true below := by
  obtain ⟨c, hcolumn, hrest, hfirst⟩ := fetch_key hname rfl hcomes
  have hpos : 0 < field.1.toList.length := List.length_pos_iff.2 (ne_nil_of_plain hname.2.1)
  have hshort := Nat.le_trans (length_le_width field.1.toList) hname.2.2
  have hcolon := Cursor.rest_move_of_append hrest
  have hsecond := @fetch_colon c (c.move field.1.toList.length) tokens field.1 inside
    (' ' :: (scalarText field.2.toList ++ after)) hcolumn rfl
    (by rw [Cursor.index_move]; omega) (by rw [Cursor.column_move]; omega) rfl hcolon
  obtain ⟨t, hthird, hmore, ht⟩ := @fetch_value field.2.toList after below hcloses
    ((c.move field.1.toList.length).move 1)
    (tokens ++ opening inside ++ [.key, .scalar field.1 true, .value])
    (by rw [Cursor.column_move]; omega) (by rw [Cursor.rest_move, hcolon]; rfl)
  refine ⟨t, fun fuel => ?_, ?_⟩
  · rw [run_step hfirst rfl, run_step hsecond rfl, run_step hthird hmore]
  · rw [List.append_assoc] at ht
    exact ht

/-- At the end of the text the mapping is closed. -/
theorem run_end {tokens : List Token} (hcomes : Comes s tokens true []) (fuel : Nat) :
    run (fuel + 1) s = some (tokens ++ [Token.blockEnd]).toArray := by
  obtain ⟨c, allowed, hskip, hrest, -⟩ := hcomes
  have hat : (between c tokens true allowed).at_ = c := rfl
  have hlast : (between c tokens true allowed).fetchEnd
      = some ⟨c, (tokens ++ [Token.blockEnd]).toArray, 0, -1, [], none, [], false, true⟩ := by
    simp [fetchEnd, between, unroll, closeBlocks, dropKey]
  have hfetch : s.fetch = (between c tokens true allowed).fetchEnd := by
    rw [fetch, hskip, expireKeys_between]
    simp only [Option.bind_eq_bind, Option.bind_some, hat, unroll_between, hrest]
  simp [run, hfetch, hlast]

/-- Fields as they are written, with a tail behind the last one. -/
def fieldsText (tail : List Char) : List (String × String) → List Char
  | [] => []
  | field :: rest => field.1.toList ++ ':' :: ' ' :: (scalarText field.2.toList ++
      (if rest = [] then tail else lineEnd field.2.toList ++ fieldsText tail rest))

theorem startsLetter_fieldsText {tail : List Char} {fields : List (String × String)}
    (hnames : ∀ field ∈ fields, IsName field.1) : startsLetter (fieldsText tail fields) := by
  cases fields with
  | nil => intro x hx; cases hx
  | cons field rest =>
    have hname := hnames field List.mem_cons_self
    obtain ⟨x, more, hkey⟩ := List.exists_cons_of_ne_nil (ne_nil_of_plain hname.2.1)
    intro y hy
    simp only [fieldsText, hkey, List.cons_append, List.head?_cons, Option.mem_def,
      Option.some.injEq] at hy
    exact hy ▸ hname.1 x (by rw [hkey]; exact List.mem_cons_self)

/-- What stands behind a value closes it. -/
theorem closes_fieldsText {tail : List Char} {field : String × String} {rest : List (String × String)}
    (hnames : ∀ field ∈ rest, IsName field.1) (hlast : rest = [] → Closes field.2.toList tail []) :
    Closes field.2.toList (if rest = [] then tail else lineEnd field.2.toList ++ fieldsText tail rest)
      (fieldsText tail rest) := by
  by_cases hrest : rest = []
  · subst hrest
    exact hlast rfl
  · have hletter := @startsLetter_fieldsText tail rest hnames
    refine ⟨hletter, ?_⟩
    rw [if_neg hrest, lineEnd]
    cases endsLine field.2.toList with
    | true => rfl
    | false => exact .line (startsWord_of_startsLetter hletter)

/-- Reading the rest of the fields. -/
theorem run_fields {tail : List Char} {fields : List (String × String)}
    (hnames : ∀ field ∈ fields, IsName field.1)
    (hlast : ∀ last ∈ fields.getLast?, Closes last.2.toList tail []) {tokens : List Token}
    (hcomes : Comes s tokens true (fieldsText tail fields)) {fuel : Nat}
    (hfuel : 3 * fields.length < fuel) :
    run fuel s = some (tokens ++ (fields.flatMap entryTokens ++ [Token.blockEnd])).toArray := by
  induction fields generalizing s tokens fuel with
  | nil =>
    obtain ⟨fuel, rfl⟩ : ∃ n, fuel = n + 1 := ⟨fuel - 1, by omega⟩
    exact run_end hcomes fuel
  | cons field rest ih =>
    obtain ⟨fuel, rfl⟩ : ∃ n, fuel = n + 3 := ⟨fuel - 3, by simp at hfuel; omega⟩
    obtain ⟨hname, hnames⟩ := List.forall_mem_cons.1 hnames
    obtain ⟨t, hrun, ht⟩ := run_entry hname
      (closes_fieldsText hnames fun hnil => hlast field (by simp [hnil])) hcomes
    rw [hrun, ih hnames ?_ ht (by simp at hfuel; omega)]
    · simp [opening]
    · intro last hmem
      cases rest with
      | nil => cases hmem
      | cons next rest => exact hlast last (by simpa using hmem)

end Lexer
end AgentDocs.Yaml
