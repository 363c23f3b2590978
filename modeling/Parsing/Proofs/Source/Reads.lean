/-
# Reading texts lexeme by lexeme

Each lexeme gives at most one piece, and leaves behind whether a line is open (`piecesFrom_cons`).
So the tokens of a text can be told one lexeme after the other, wherever the text stands: a text
that begins with a lexeme is read as the token of the lexeme and what the rest is read as
(`reads_append_iff`). In particular a token without quotes is read as itself before a blank, a
single space gives no token, and a line feed ends an open line.

Key definitions: `Lexeme.piece?`, `Lexeme.leavesFresh`, `Reads`, `closing`, `Plain`, `Token.Bare`.
Key theorems: `piecesFrom_cons`, `reads_append_iff`, `Reads.token`, `Reads.space`,
`Reads.newline`.
-/
import Parsing.Proofs.Source.Lexeme
import Parsing.Proofs.Source.Lines

namespace Parsing.Source

open Text

/-! ### One lexeme -/

/-- The piece that a lexeme at byte `pos` gives, if it gives one. -/
def Lexeme.piece? (pos : Nat) (fresh : Bool) : Lexeme → Option Piece
  | .unclosed _ _ => some (.unclosedQuote pos)
  | l => (l.token? fresh).map fun t => .token pos t (pos + l.size)

/-- Whether no line is open behind a lexeme. -/
def Lexeme.leavesFresh (fresh : Bool) (l : Lexeme) : Bool :=
  match l.token? fresh with
  | none => fresh
  | some t => t = .lineEnd

variable {l : Lexeme} {cs after : List Char} {fresh : Bool} {ts : List Token} {t : Token}

theorem piecesFrom_cons (pos : Nat) (fresh : Bool) (l : Lexeme) (ls : List Lexeme) :
    piecesFrom pos fresh (l :: ls) =
      (l.piece? pos fresh).toList ++ piecesFrom (pos + l.size) (l.leavesFresh fresh) ls := by
  cases l with
  | unclosed | comment => rfl
  | word | bracket | quoted => simp [piecesFrom, Lexeme.piece?, Lexeme.leavesFresh, Lexeme.token?]
  | operator run | blank run =>
    simp only [piecesFrom, Lexeme.piece?, Lexeme.leavesFresh]
    split <;> simp [*]

/-- A lexeme that is no unclosed quotation is read as its token. -/
theorem map_token?_piece? (hl : ¬ ∃ delim rest, l = .unclosed delim rest) (pos : Nat) :
    (l.piece? pos fresh).toList.map Piece.token? = (l.token? fresh).toList.map some := by
  have hpiece : l.piece? pos fresh =
      (l.token? fresh).map fun t => .token pos t (pos + l.size) := by
    cases l with
    | unclosed delim rest => exact absurd ⟨delim, rest, rfl⟩ hl
    | _ => rfl
  rw [hpiece]
  cases l.token? fresh <;> rfl

/-- What tokens are read does not depend on where the text stands. -/
theorem map_token?_piecesFrom (pos pos' : Nat) (fresh : Bool) (ls : List Lexeme) :
    (piecesFrom pos fresh ls).map Piece.token? = (piecesFrom pos' fresh ls).map Piece.token? := by
  induction ls generalizing pos pos' fresh with
  | nil => cases fresh <;> rfl
  | cons l ls ih =>
    have hpiece : (l.piece? pos fresh).toList.map Piece.token? =
        (l.piece? pos' fresh).toList.map Piece.token? := by
      by_cases hl : ∃ delim rest, l = .unclosed delim rest
      · obtain ⟨delim, rest, rfl⟩ := hl
        rfl
      · rw [map_token?_piece? hl, map_token?_piece? hl]
    rw [piecesFrom_cons, piecesFrom_cons, List.map_append, List.map_append, hpiece,
      ih (pos + l.size) (pos' + l.size)]

/-! ### Texts -/

variable [Brackets]

/-- Whether the text, read where a rule line is open or not, gives the tokens and no unclosed
quotation. -/
def Reads (fresh : Bool) (cs : List Char) (ts : List Token) : Prop :=
  ∀ pos, (piecesFrom pos fresh (lexemes cs)).map Piece.token? = ts.map some

theorem reads_iff (pos : Nat) :
    Reads fresh cs ts ↔ (piecesFrom pos fresh (lexemes cs)).map Piece.token? = ts.map some := by
  refine ⟨fun h => h pos, fun h pos' => ?_⟩
  rw [map_token?_piecesFrom pos' pos]
  exact h

/-- What closes the line that is open, if one is. -/
def closing (fresh : Bool) : List Token := if fresh then [] else [.lineEnd]

theorem reads_nil_iff : Reads fresh [] ts ↔ ts = closing fresh := by
  have hend : (piecesFrom 0 fresh []).map Piece.token? = (closing fresh).map some := by
    cases fresh <;> rfl
  rw [reads_iff 0, lexemes, hend, List.map_inj_right fun _ _ => Option.some.inj, eq_comm]

/-- **A lexeme is read as its token, if it is no unclosed quotation.** -/
theorem reads_append_iff (h : l.Ends after) : Reads fresh (l.chars ++ after) ts ↔
    (¬ ∃ delim rest, l = .unclosed delim rest) ∧
      ∃ ts', ts = (l.token? fresh).toList ++ ts' ∧ Reads (l.leavesFresh fresh) after ts' := by
  rw [reads_iff 0, h.lexemes_append, piecesFrom_cons, List.map_append]
  by_cases hl : ∃ delim rest, l = .unclosed delim rest
  · refine iff_of_false (fun heq => ?_) fun h => h.1 hl
    obtain ⟨delim, rest, rfl⟩ := hl
    cases ts <;> cases heq
  · rw [map_token?_piece? hl, eq_comm, List.map_eq_append_iff]
    constructor
    · rintro ⟨ts₁, ts₂, rfl, h₁, h₂⟩
      obtain rfl := (List.map_inj_right fun _ _ => Option.some.inj).mp h₁
      exact ⟨hl, ts₂, rfl, (reads_iff (0 + l.size)).mpr h₂.symm⟩
    · rintro ⟨-, ts', rfl, hread⟩
      exact ⟨_, ts', rfl, rfl, ((reads_iff (0 + l.size)).mp hread).symm⟩

/-- A lexeme that gives nothing can be left out. -/
theorem reads_skip_iff (h : l.Ends after) (hl : ¬ ∃ delim rest, l = .unclosed delim rest)
    (hnone : l.token? fresh = none) : Reads fresh (l.chars ++ after) ts ↔ Reads fresh after ts := by
  simp [reads_append_iff h, hl, Lexeme.leavesFresh, hnone]

theorem Reads.of_token? (h : l.Ends after) (ht : l.token? fresh = some t)
    (hread : Reads (t = .lineEnd) after ts) : Reads fresh (l.chars ++ after) (t :: ts) := by
  refine (reads_append_iff h).mpr ⟨?_, ts, by rw [ht]; rfl, ?_⟩
  · rintro ⟨delim, rest, rfl⟩
    cases ht
  · rwa [Lexeme.leavesFresh, ht]

/-! ### Tokens between blanks -/

/-- Whether the symbol is written without quotes: as a word, a bracket, or an operator that is no
arrow, bar or line end. -/
def Plain (s : Symbol) : Prop :=
  (s.toList ≠ [] ∧ s.toList.all isWordChar) ∨
  (s.toList.length = 1 ∧ s.toList.all isBracket) ∨
  (s.toList ≠ [] ∧ s.toList.all isOperative ∧ s ≠ "->" ∧ s ≠ "|" ∧ s ≠ ";")

instance (s : Symbol) : Decidable (Plain s) := inferInstanceAs (Decidable (_ ∨ _ ∨ _))

/-- The characters of a token without quotes. -/
def Token.chars : Token → List Char
  | arrow => ['-', '>']
  | bar => ['|']
  | lineEnd => [';']
  | symbol s => s.toList

/-- Whether the token can be written without quotes. -/
def Token.Bare : Token → Prop
  | symbol s => Plain s
  | _ => True

theorem Lexeme.Solid.operator_of_marks {text : List Char} (hne : text ≠ [])
    (h : ∀ c ∈ text, c ∈ ['-', '>', '|', ';']) : (Lexeme.operator text).Solid :=
  .operator hne fun c hc => isOperative_of_mark (h c hc)

/-- What is written without quotes is one solid lexeme. -/
theorem Token.Bare.exists_lexeme {t : Token} (h : t.Bare) :
    ∃ l : Lexeme, l.Solid ∧ l.chars = t.chars ∧ ∀ fresh, l.token? fresh = some t := by
  cases t with
  | arrow => exact ⟨.operator ['-', '>'], .operator_of_marks nofun (by simp), rfl, fun _ => rfl⟩
  | bar => exact ⟨.operator ['|'], .operator_of_marks nofun (by simp), rfl, fun _ => rfl⟩
  | lineEnd => exact ⟨.operator [';'], .operator_of_marks nofun (by simp), rfl, fun _ => rfl⟩
  | symbol s =>
    rcases h with ⟨hne, hword⟩ | ⟨hlen, hbracket⟩ | ⟨hne, hop, harrow, hbar, hend⟩
    · refine ⟨.word s.toList, .word hne (List.all_eq_true.mp hword), rfl, fun _ => ?_⟩
      simp [Lexeme.token?, String.ofList_toList]
    · obtain ⟨c, hc⟩ := List.length_eq_one_iff.mp hlen
      have hs : s = String.ofList [c] := by rw [← hc, String.ofList_toList]
      have hmem : c ∈ s.toList := by simp [hc]
      refine ⟨.bracket c, .bracket (List.all_eq_true.mp hbracket c hmem), hc.symm, fun _ => ?_⟩
      rw [Lexeme.token?, hs]
    · refine ⟨.operator s.toList, .operator hne (List.all_eq_true.mp hop), rfl, fun _ => ?_⟩
      have hspell : ∀ {text : String}, s ≠ text → s.toList ≠ text.toList :=
        fun hne e => hne (String.toList_inj.mp e)
      have harrow : s.toList ≠ ['-', '>'] := hspell harrow
      have hbar : s.toList ≠ ['|'] := hspell hbar
      have hend : s.toList ≠ [';'] := hspell hend
      simp [Lexeme.token?, harrow, hbar, hend, String.ofList_toList]

namespace Reads

theorem nil : Reads true [] [] := reads_nil_iff.mpr rfl

theorem token (ht : t.Bare) (hcs : ∀ c ∈ cs.head?, isBlank c = true)
    (h : Reads (t = .lineEnd) cs ts) : Reads fresh (t.chars ++ cs) (t :: ts) := by
  obtain ⟨l, hsolid, hchars, htoken⟩ := ht.exists_lexeme
  rw [← hchars]
  exact of_token? (hsolid.ends hcs) (htoken fresh) h

theorem space (hcs : ∀ c ∈ cs.head?, isBlank c = false) (h : Reads fresh cs ts) :
    Reads fresh (' ' :: cs) ts :=
  (reads_skip_iff (Lexeme.ends_blank (by decide) hcs) (by simp) (by simp [Lexeme.token?])).mpr h

theorem newline (hcs : ∀ c ∈ cs.head?, isBlank c = false) (h : Reads true cs ts) :
    Reads false ('\n' :: cs) (.lineEnd :: ts) :=
  of_token? (Lexeme.ends_blank isBlank_newline hcs) (by simp [Lexeme.token?]) h

end Reads

end Parsing.Source
