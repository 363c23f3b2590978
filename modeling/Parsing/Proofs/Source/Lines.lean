/-
# Rows of rule lines

Reading accepts exactly the rows of lines (`Line`) that the productions of rule lines give, with one
rule for each alternative in the order written.

It stops at the first piece after which no row of lines goes on like the pieces so far. The proof
follows the places that reading comes to: it comes to a place exactly when the tokens so far
can be gone on with, for every place has tokens that finish its line (`viable_iff`). So what a
place does not let through could not have been gone on with, and what it does let through could.

Key definitions: `Lined`, `Viable`, `MayFollow`, `Place.pass?`.
Key theorems: `Place.pass?_eq_lineStart_iff`, `viable_iff`, `readLines_first_refused`,
`readLines_eq_ok_iff`, `readLines_earliest`.
-/
import Mathlib.Data.List.Induction
import Parsing.Source.Lines

namespace Parsing.Source

/-! ### Rows of lines -/

/-- The token of a piece, if it is one. -/
def Piece.token? : Piece → Option Token
  | token _ t _ => some t
  | unclosedQuote _ => none

/-- The kind of a token. -/
def Token.kind : Token → Terminal
  | arrow => .arrow
  | bar => .bar
  | lineEnd => .lineEnd
  | symbol _ => .symbol

/-- Whether the pieces are the tokens of the lines, wherever they stand in the text. -/
def Lined (ps : List Piece) (lines : List Line) : Prop :=
  ps.map Piece.token? = (lines.flatMap Line.tokens).map some

/-- Whether the pieces can be gone on with to make up lines. -/
def Viable (ps : List Piece) : Prop := ∃ more lines, Lined (ps ++ more) lines

/-- Whether a token of the kind may come behind the pieces. -/
def MayFollow (ps : List Piece) (k : Terminal) : Prop :=
  ∃ start t stop, Token.kind t = k ∧ Viable (ps ++ [.token start t stop])

/-- The refusal that a piece behind the given ones calls for: an unclosed quotation is reported as
it is, and a token as unexpected, with the kinds of token that may come in its place. -/
inductive Refused (front : List Piece) : Piece → Rejection → Prop
  | quote (pos : Nat) : Refused front (.unclosedQuote pos) (.unclosedQuote pos)
  | token (start : Nat) (t : Token) (stop : Nat) {expected : List Terminal}
      (h : ∀ k, k ∈ expected ↔ MayFollow front k) :
      Refused front (.token start t stop)
        (.unexpectedToken start t stop (expected.map Terminal.text))

/-! ### Places that tokens lead to -/

namespace Place

/-- The place behind the tokens and the rules completed on the way, unless some token is refused. -/
def pass? : Place → List Token → Option (Place × List Rule)
  | place, [] => some (place, [])
  | place, t :: ts =>
    (place.next? t).bind fun p => (p.1.pass? ts).map fun q => (q.1, p.2 ++ q.2)

variable {place place' place'' : Place} {ts us : List Token} {rs rs' : List Rule} {t : Token}

theorem pass?_cons_eq_some_iff :
    place.pass? (t :: ts) = some (place'', rs) ↔ ∃ place' rs₁ rs₂,
      place.next? t = some (place', rs₁) ∧ place'.pass? ts = some (place'', rs₂) ∧
        rs = rs₁ ++ rs₂ := by
  simp only [pass?, Option.bind_eq_some_iff, Option.map_eq_some_iff, Prod.exists, Prod.mk.injEq]
  constructor
  · rintro ⟨p, rs₁, hn, q, rs₂, hp, rfl, rfl⟩
    exact ⟨p, rs₁, rs₂, hn, hp, rfl⟩
  · rintro ⟨p, rs₁, rs₂, hn, hp, rfl⟩
    exact ⟨p, rs₁, hn, place'', rs₂, hp, rfl, rfl⟩

theorem pass?_append_eq_some_iff :
    place.pass? (ts ++ us) = some (place'', rs) ↔ ∃ place' rs₁ rs₂,
      place.pass? ts = some (place', rs₁) ∧ place'.pass? us = some (place'', rs₂) ∧
        rs = rs₁ ++ rs₂ := by
  induction ts generalizing place rs with
  | nil =>
    simp only [List.nil_append, pass?, Option.some.injEq, Prod.mk.injEq]
    constructor
    · exact fun h => ⟨place, [], rs, ⟨rfl, rfl⟩, h, rfl⟩
    · rintro ⟨_, _, rs, ⟨rfl, rfl⟩, h, rfl⟩
      exact h
  | cons t ts ih =>
    simp only [List.cons_append, pass?_cons_eq_some_iff, ih]
    constructor
    · rintro ⟨p, rs₁, _, hn, ⟨q, rs₂, rs₃, hp, hq, rfl⟩, rfl⟩
      exact ⟨q, rs₁ ++ rs₂, rs₃, ⟨p, rs₁, rs₂, hn, hp, rfl⟩, hq, by simp⟩
    · rintro ⟨q, _, rs₃, ⟨p, rs₁, rs₂, hn, hp, rfl⟩, hq, rfl⟩
      exact ⟨p, rs₁, rs₂ ++ rs₃, hn, ⟨q, rs₂, rs₃, hp, hq, rfl⟩, by simp⟩

theorem pass?_symbols (lhs : Symbol) (body more : List Symbol) :
    (inBody lhs body).pass? (more.map .symbol) = some (inBody lhs (body ++ more), []) := by
  induction more generalizing body with
  | nil => simp [pass?]
  | cons s more ih => simp [pass?, next?, ih]

/-- The rest of a line completes the alternative that is open, and the others. -/
theorem pass?_bodyTokens (lhs : Symbol) (body more : List Symbol) (others : List (List Symbol)) :
    (inBody lhs body).pass? (Line.bodyTokens more others) =
      some (lineStart, ((body ++ more) :: others).map fun b => ⟨lhs, b⟩) := by
  unfold Line.bodyTokens
  rw [List.append_assoc, pass?_append_eq_some_iff]
  refine ⟨_, _, _, pass?_symbols lhs body more, ?_, rfl⟩
  generalize body ++ more = body
  induction others generalizing body with
  | nil => simp [pass?, next?]
  | cons other others ih =>
    rw [List.flatMap_cons, List.append_assoc, List.cons_append, pass?_cons_eq_some_iff]
    refine ⟨inBody lhs [], [⟨lhs, body⟩], _, rfl, ?_, rfl⟩
    rw [pass?_append_eq_some_iff]
    exact ⟨_, _, _, pass?_symbols lhs [] other, ih ([] ++ other), rfl⟩

theorem pass?_tokens (l : Line) : lineStart.pass? l.tokens = some (lineStart, l.rules) := by
  cases l with
  | blank => rfl
  | alternatives lhs first others =>
    refine pass?_cons_eq_some_iff.mpr ⟨afterHead lhs, [], _, rfl, ?_, rfl⟩
    exact pass?_cons_eq_some_iff.mpr
      ⟨inBody lhs [], [], _, rfl, pass?_bodyTokens lhs [] first others, rfl⟩

theorem pass?_flatMap_tokens (lines : List Line) :
    lineStart.pass? (lines.flatMap Line.tokens) = some (lineStart, lines.flatMap Line.rules) := by
  induction lines with
  | nil => rfl
  | cons l lines ih =>
    exact pass?_append_eq_some_iff.mpr ⟨_, _, _, pass?_tokens l, ih, rfl⟩

/-- Whether the tokens are the rest of the line that is open, and the rules those that are still
to come of it. -/
def Ends : Place → List Token → List Rule → Prop
  | lineStart, ts, rs => ts = [] ∧ rs = []
  | afterHead lhs, ts, rs => ∃ first others, ts = .arrow :: Line.bodyTokens first others ∧
      rs = (first :: others).map fun b => ⟨lhs, b⟩
  | inBody lhs body, ts, rs => ∃ more others, ts = Line.bodyTokens more others ∧
      rs = ((body ++ more) :: others).map fun b => ⟨lhs, b⟩

/-- A token that fits stands before the rest of a line, or it is a line end of its own. -/
theorem Ends.step (hn : place.next? t = some (place', rs)) (h : place'.Ends ts rs') :
    place.Ends (t :: ts) (rs ++ rs') ∨
      place = lineStart ∧ ∃ l : Line, t :: ts = l.tokens ∧ rs ++ rs' = l.rules := by
  cases place with
  | lineStart =>
    cases t with
    | arrow | bar => cases hn
    | lineEnd =>
      cases hn
      obtain ⟨rfl, rfl⟩ := h
      exact .inr ⟨rfl, .blank, rfl, rfl⟩
    | symbol s =>
      cases hn
      obtain ⟨first, others, rfl, rfl⟩ := h
      exact .inr ⟨rfl, .alternatives s first others, rfl, rfl⟩
  | afterHead lhs =>
    cases t with
    | bar | lineEnd | symbol => cases hn
    | arrow =>
      cases hn
      obtain ⟨more, others, rfl, rfl⟩ := h
      exact .inl ⟨more, others, rfl, rfl⟩
  | inBody lhs body =>
    cases t with
    | arrow => cases hn
    | bar =>
      cases hn
      obtain ⟨more, others, rfl, rfl⟩ := h
      exact .inl ⟨[], more :: others, by simp [Line.bodyTokens], by simp⟩
    | lineEnd =>
      cases hn
      obtain ⟨rfl, rfl⟩ := h
      exact .inl ⟨[], [], rfl, by simp⟩
    | symbol s =>
      cases hn
      obtain ⟨more, others, rfl, rfl⟩ := h
      exact .inl ⟨s :: more, others, rfl, by simp⟩

/-- Tokens that lead to the start of a line finish the line that is open and make up lines. -/
theorem exists_ends (h : place.pass? ts = some (lineStart, rs)) :
    ∃ ts₁ rs₁, ∃ lines : List Line, place.Ends ts₁ rs₁ ∧ ts = ts₁ ++ lines.flatMap Line.tokens ∧
      rs = rs₁ ++ lines.flatMap Line.rules := by
  induction ts generalizing place rs with
  | nil =>
    cases h
    exact ⟨[], [], [], ⟨rfl, rfl⟩, rfl, rfl⟩
  | cons t ts ih =>
    obtain ⟨place', rs', rs'', hn, hp, rfl⟩ := pass?_cons_eq_some_iff.mp h
    obtain ⟨ts₁, rs₁, lines, he, rfl, rfl⟩ := ih hp
    rcases he.step hn with he | ⟨rfl, l, htokens, hrules⟩
    · exact ⟨t :: ts₁, rs' ++ rs₁, lines, he, rfl, by simp⟩
    · refine ⟨[], [], l :: lines, ⟨rfl, rfl⟩, ?_, ?_⟩
      · rw [List.flatMap_cons, ← htokens]
        rfl
      · rw [List.flatMap_cons, ← hrules]
        simp

/-- **The tokens that lead from the start of a line to the start of a line are those of lines.** -/
theorem pass?_eq_lineStart_iff :
    lineStart.pass? ts = some (lineStart, rs) ↔
      ∃ lines : List Line, ts = lines.flatMap Line.tokens ∧ rs = lines.flatMap Line.rules := by
  constructor
  · intro h
    obtain ⟨_, _, lines, ⟨rfl, rfl⟩, rfl, rfl⟩ := exists_ends h
    exact ⟨lines, rfl, rfl⟩
  · rintro ⟨lines, rfl, rfl⟩
    exact pass?_flatMap_tokens lines

/-- From every place some tokens lead to the start of a line. -/
theorem exists_finish (place : Place) : ∃ ts rs, place.pass? ts = some (lineStart, rs) := by
  cases place with
  | lineStart => exact ⟨[], [], rfl⟩
  | afterHead lhs => exact ⟨[.arrow, .lineEnd], _, rfl⟩
  | inBody lhs body => exact ⟨[.lineEnd], _, rfl⟩

/-- What is expected at a place is what goes on from there. -/
theorem mem_expected_iff {k : Terminal} :
    k ∈ place.expected ↔ ∃ t : Token, t.kind = k ∧ (place.next? t).isSome = true := by
  constructor
  · intro h
    cases place <;> cases k <;> simp [expected] at h
    · exact ⟨.lineEnd, rfl, rfl⟩
    · exact ⟨.symbol "", rfl, rfl⟩
    · exact ⟨.arrow, rfl, rfl⟩
    · exact ⟨.bar, rfl, rfl⟩
    · exact ⟨.lineEnd, rfl, rfl⟩
    · exact ⟨.symbol "", rfl, rfl⟩
  · rintro ⟨t, rfl, h⟩
    cases place <;> cases t <;> simp_all [expected, Token.kind, next?]

/-- At the end of the tokens no less is expected than goes on from there. -/
theorem expected_subset_expectedAtEnd : place.expected ⊆ place.expectedAtEnd := by
  intro k hk
  cases place with
  | lineStart => exact hk
  | afterHead lhs => cases k <;> simp [expectedAtEnd]
  | inBody lhs body => cases body <;> cases k <;> simp_all [expected, expectedAtEnd]

end Place

/-! ### Reading pieces -/

/-- Where the last token stops, if one behind `last` comes. -/
def lastStop (last : Nat) (ps : List Piece) : Nat :=
  ps.foldl (fun last p => match p with
    | .token _ _ stop => stop
    | .unclosedQuote _ => last) last

section

variable {place place' : Place} {last : Nat} {ps front rest : List Piece} {ts : List Token}
  {rs : List Rule}

theorem readFrom_token {t : Token} (hn : place.next? t = some (place', rs)) (start stop : Nat) :
    readFrom last place (.token start t stop :: ps) =
      (readFrom stop place' ps).map (rs ++ ·) := by
  rw [readFrom, hn]
  dsimp only
  cases readFrom stop place' ps <;> rfl

/-- Reading goes on behind tokens that are passed, with the rules of these tokens first. -/
theorem readFrom_append (hts : front.map Piece.token? = ts.map some)
    (h : place.pass? ts = some (place', rs)) :
    readFrom last place (front ++ rest) =
      (readFrom (lastStop last front) place' rest).map (rs ++ ·) := by
  induction front generalizing place last ts rs with
  | nil =>
    obtain rfl : ts = [] := by simpa using hts.symm
    cases h
    show readFrom last place' rest = (readFrom last place' rest).map ([] ++ ·)
    cases readFrom last place' rest <;> rfl
  | cons p front ih =>
    cases ts with
    | nil => simp at hts
    | cons t ts =>
      obtain ⟨hp, htail⟩ := List.cons.inj hts
      cases p with
      | unclosedQuote pos => cases hp
      | token start t' stop =>
        obtain rfl : t' = t := Option.some.inj hp
        obtain ⟨place₁, rs₁, rs₂, hn, hrest, rfl⟩ := Place.pass?_cons_eq_some_iff.mp h
        rw [List.cons_append, readFrom_token hn, ih htail hrest]
        show _ = (readFrom (lastStop stop front) place' rest).map (rs₁ ++ rs₂ ++ ·)
        cases readFrom (lastStop stop front) place' rest with
        | error e => rfl
        | ok rs => exact congrArg Except.ok (List.append_assoc rs₁ rs₂ rs).symm

/-- The places that reading comes to: the pieces are tokens that lead there. -/
def Reaches (ps : List Piece) (place : Place) (rs : List Rule) : Prop :=
  ∃ ts : List Token, ps.map Piece.token? = ts.map some ∧
    Place.lineStart.pass? ts = some (place, rs)

theorem Reaches.readLines_append (h : Reaches front place rs) (rest : List Piece) :
    readLines (front ++ rest) = (readFrom (lastStop 0 front) place rest).map (rs ++ ·) := by
  obtain ⟨ts, hts, hp⟩ := h
  exact readFrom_append hts hp

theorem reaches_lineStart_iff :
    Reaches ps .lineStart rs ↔ ∃ lines, Lined ps lines ∧ rs = lines.flatMap Line.rules := by
  constructor
  · rintro ⟨ts, hts, hp⟩
    obtain ⟨lines, rfl, rfl⟩ := Place.pass?_eq_lineStart_iff.mp hp
    exact ⟨lines, hts, rfl⟩
  · rintro ⟨lines, hl, rfl⟩
    exact ⟨_, hl, Place.pass?_flatMap_tokens lines⟩

theorem reaches_append_iff :
    Reaches (ps ++ rest) place' rs ↔ ∃ place rs₁ ts rs₂, Reaches ps place rs₁ ∧
      rest.map Piece.token? = ts.map some ∧ place.pass? ts = some (place', rs₂) ∧
        rs = rs₁ ++ rs₂ := by
  constructor
  · rintro ⟨ts, hts, hp⟩
    rw [List.map_append] at hts
    obtain ⟨ts₁, ts₂, rfl, h₁, h₂⟩ := List.map_eq_append_iff.mp hts.symm
    obtain ⟨place, rs₁, rs₂, hp₁, hp₂, rfl⟩ := Place.pass?_append_eq_some_iff.mp hp
    exact ⟨place, rs₁, ts₂, rs₂, ⟨ts₁, h₁.symm, hp₁⟩, h₂.symm, hp₂, rfl⟩
  · rintro ⟨place, rs₁, ts₂, rs₂, ⟨ts₁, h₁, hp₁⟩, h₂, hp₂, rfl⟩
    refine ⟨ts₁ ++ ts₂, by rw [List.map_append, List.map_append, h₁, h₂], ?_⟩
    exact Place.pass?_append_eq_some_iff.mpr ⟨place, rs₁, rs₂, hp₁, hp₂, rfl⟩

/-- **Pieces can be gone on with exactly when they lead to a place.** -/
theorem viable_iff : Viable ps ↔ ∃ place rs, Reaches ps place rs := by
  constructor
  · rintro ⟨more, lines, h⟩
    obtain ⟨place, rs, -, -, hreach, -⟩ :=
      reaches_append_iff.mp (reaches_lineStart_iff.mpr ⟨lines, h, rfl⟩)
    exact ⟨place, rs, hreach⟩
  · rintro ⟨place, rs, hreach⟩
    obtain ⟨ts, rs', hf⟩ := place.exists_finish
    have hmore : (ts.map fun t => Piece.token 0 t 0).map Piece.token? = ts.map some := by
      rw [List.map_map]
      rfl
    obtain ⟨lines, hl, -⟩ := reaches_lineStart_iff.mp
      (reaches_append_iff.mpr ⟨place, rs, ts, rs', hreach, hmore, hf, rfl⟩)
    exact ⟨_, lines, hl⟩

theorem Reaches.unique {rs' : List Rule} (h : Reaches ps place rs) (h' : Reaches ps place' rs') :
    place = place' ∧ rs = rs' := by
  obtain ⟨ts, hts, hp⟩ := h
  obtain ⟨ts', hts', hp'⟩ := h'
  obtain rfl : ts = ts' :=
    (List.map_inj_right fun _ _ => Option.some.inj).mp (hts.symm.trans hts')
  exact Prod.mk.inj (Option.some.inj (hp.symm.trans hp'))

/-- A token can be gone on with if and only if the place before it lets it pass. -/
theorem Reaches.viable_concat_iff (h : Reaches ps place rs) {t : Token} {start stop : Nat} :
    Viable (ps ++ [.token start t stop]) ↔ (place.next? t).isSome = true := by
  rw [viable_iff]
  constructor
  · rintro ⟨place', rs', h'⟩
    obtain ⟨place₀, rs₁, ts, rs₂, h₀, hts, hp, -⟩ := reaches_append_iff.mp h'
    obtain ⟨rfl, -⟩ := h.unique h₀
    obtain rfl : ts = [t] := (List.map_inj_right fun _ _ => Option.some.inj).mp hts.symm
    obtain ⟨place₁, rs₁, -, hn, -⟩ := Place.pass?_cons_eq_some_iff.mp hp
    rw [hn]
    rfl
  · intro hn
    obtain ⟨⟨place', rs'⟩, hn⟩ := Option.isSome_iff_exists.mp hn
    exact ⟨place', rs ++ rs', reaches_append_iff.mpr ⟨place, rs, [t], rs', h, rfl,
      Place.pass?_cons_eq_some_iff.mpr ⟨place', rs', [], hn, rfl, by simp⟩, rfl⟩⟩

/-- What is expected at a place is what may follow the pieces that lead there. -/
theorem Reaches.mem_expected_iff (h : Reaches ps place rs) {k : Terminal} :
    k ∈ place.expected ↔ MayFollow ps k := by
  rw [Place.mem_expected_iff]
  constructor
  · rintro ⟨t, hk, hn⟩
    exact ⟨0, t, 0, hk, h.viable_concat_iff.mpr hn⟩
  · rintro ⟨start, t, stop, hk, hv⟩
    exact ⟨t, hk, h.viable_concat_iff.mp hv⟩

/-- Reading ends at the first piece that the place does not let pass. -/
theorem Reaches.readLines_refused {t : Token} (h : Reaches front place rs)
    (hn : place.next? t = none) (start stop : Nat) :
    readLines (front ++ .token start t stop :: rest) =
      .error (.unexpectedToken start t stop (place.expected.map Terminal.text)) := by
  rw [h.readLines_append, readFrom, hn]
  rfl

theorem Reaches.readLines_unclosed (h : Reaches front place rs) (pos : Nat) :
    readLines (front ++ .unclosedQuote pos :: rest) = .error (.unclosedQuote pos) := by
  rw [h.readLines_append]
  cases place <;> rfl

/-- Reading of pieces without refusal ends well at the start of a line, and nowhere else. -/
theorem Reaches.readLines_lineStart (h : Reaches ps .lineStart rs) : readLines ps = .ok rs := by
  have := h.readLines_append []
  rw [List.append_nil] at this
  rw [this]
  exact congrArg Except.ok (List.append_nil rs)

theorem Reaches.readLines_open (h : Reaches ps place rs) (hp : place ≠ .lineStart) :
    readLines ps =
      .error (.unexpectedEnd (lastStop 0 ps) (place.expectedAtEnd.map Terminal.text)) := by
  have := h.readLines_append []
  rw [List.append_nil] at this
  rw [this]
  cases place with
  | lineStart => exact absurd rfl hp
  | afterHead | inBody => rfl

theorem Reaches.exists_last (h : Reaches ps place rs) (hp : place ≠ .lineStart) :
    ∃ start t stop, ps.getLast? = some (.token start t stop) ∧ lastStop 0 ps = stop := by
  obtain ⟨ts, hts, hpass⟩ := h
  cases ps using List.reverseRecOn with
  | nil =>
    obtain rfl : ts = [] := by simpa using hts.symm
    cases hpass
    exact absurd rfl hp
  | append_singleton ps p =>
    cases p with
    | unclosedQuote pos =>
      have hmem : none ∈ ts.map some := by rw [← hts]; simp [Piece.token?]
      simp at hmem
    | token start t stop =>
      exact ⟨start, t, stop, List.getLast?_concat, by simp [lastStop, List.foldl_append]⟩

/-- Pieces that cannot be gone on with have a first one from which on they cannot. -/
theorem exists_first_refused (h : ¬ Viable ps) :
    ∃ front p rest, ps = front ++ p :: rest ∧ Viable front ∧ ¬ Viable (front ++ [p]) := by
  induction ps using List.reverseRecOn with
  | nil => exact absurd ⟨[], [], rfl⟩ h
  | append_singleton ps p ih =>
    by_cases hv : Viable ps
    · exact ⟨ps, p, [], rfl, hv, h⟩
    · obtain ⟨front, q, rest, rfl, hfront, hq⟩ := ih hv
      exact ⟨front, q, rest ++ [p], by simp, hfront, hq⟩

/-- **The first piece that cannot be gone on with is reported.** -/
theorem readLines_first_refused {p : Piece} (hv : Viable front) (hp : ¬ Viable (front ++ [p])) :
    ∃ e, readLines (front ++ p :: rest) = .error e ∧ Refused front p e := by
  obtain ⟨place, rs, h⟩ := viable_iff.mp hv
  cases p with
  | unclosedQuote pos => exact ⟨_, h.readLines_unclosed pos, .quote pos⟩
  | token start t stop =>
    rw [h.viable_concat_iff, Option.not_isSome_iff_eq_none] at hp
    exact ⟨_, h.readLines_refused hp start stop, .token start t stop fun _ => h.mem_expected_iff⟩

/-- **Where all can be gone on with but a line is open, the end is reported.** -/
theorem readLines_open (hv : Viable ps) (hl : ¬ ∃ lines, Lined ps lines) :
    ∃ start t stop, ∃ expected : List Terminal, ps.getLast? = some (.token start t stop) ∧
      (∀ k, MayFollow ps k → k ∈ expected) ∧
        readLines ps = .error (.unexpectedEnd stop (expected.map Terminal.text)) := by
  obtain ⟨place, rs, h⟩ := viable_iff.mp hv
  have hp : place ≠ .lineStart := by
    rintro rfl
    obtain ⟨lines, hlines, -⟩ := reaches_lineStart_iff.mp h
    exact hl ⟨lines, hlines⟩
  obtain ⟨start, t, stop, hlast, hstop⟩ := h.exists_last hp
  refine ⟨start, t, stop, place.expectedAtEnd, hlast, fun k hk => ?_, ?_⟩
  · exact Place.expected_subset_expectedAtEnd (h.mem_expected_iff.mpr hk)
  · rw [h.readLines_open hp, hstop]

/-- **Reading accepts the rows of lines**, and gives their rules. -/
theorem readLines_eq_ok_iff :
    readLines ps = .ok rs ↔ ∃ lines, Lined ps lines ∧ rs = lines.flatMap Line.rules := by
  rw [← reaches_lineStart_iff]
  refine ⟨fun hok => ?_, Reaches.readLines_lineStart⟩
  by_cases hv : Viable ps
  · obtain ⟨place, rs', h⟩ := viable_iff.mp hv
    by_cases hp : place = .lineStart
    · subst hp
      obtain rfl : rs' = rs := Except.ok.inj (h.readLines_lineStart.symm.trans hok)
      exact h
    · rw [h.readLines_open hp] at hok
      cases hok
  · obtain ⟨front, p, rest, rfl, hfront, hp⟩ := exists_first_refused hv
    obtain ⟨e, herror, -⟩ := readLines_first_refused hfront hp
    rw [herror] at hok
    cases hok

end

/-- **Reading accepts exactly the rows of lines**, and gives their rules in the order written.
Otherwise the first piece decides after which no lines go on like the pieces so far. If there is no
such piece, the last line is open, and the end of the pieces is reported where the last token
stops; no kind of token that may come there is left out. -/
theorem readLines_earliest (ps : List Piece) :
    (∀ rs, readLines ps = .ok rs ↔ ∃ lines, Lined ps lines ∧ rs = lines.flatMap Line.rules) ∧
    (¬ Viable ps → ∃ front p rest, ps = front ++ p :: rest ∧ Viable front ∧
      ¬ Viable (front ++ [p])) ∧
    (∀ front p rest, ps = front ++ p :: rest → Viable front → ¬ Viable (front ++ [p]) →
      ∃ e, readLines ps = .error e ∧ Refused front p e) ∧
    (Viable ps → (¬ ∃ lines, Lined ps lines) → ∃ start t stop, ∃ expected : List Terminal,
      ps.getLast? = some (.token start t stop) ∧ (∀ k, MayFollow ps k → k ∈ expected) ∧
        readLines ps = .error (.unexpectedEnd stop (expected.map Terminal.text))) := by
  refine ⟨fun rs => readLines_eq_ok_iff, exists_first_refused, ?_, readLines_open⟩
  rintro front p rest rfl hv hp
  exact readLines_first_refused hv hp

end Parsing.Source
