/-
# The parts of a text and what they give

A text falls into lexemes that end where the next one begins, and in no other way
(`lexemes_eq_iff`). Since no character is of two classes, a word or an operator cannot be made
longer to the left either (`Lexeme.Ends.apart`), so both are maximal runs of their class.

Each piece that is handed out comes from one of these parts, but for the line end that closes a
line left open by the end of the text. Whether a line is open is not a matter of a flag that is
carried along: it is open at a byte when the last token handed out before that byte is no line end
(`LineOpen`). So all that is handed out can be told from the parts alone (`Accounted`), and
nothing of the text is lost or made up.

Key definitions: `Divides`, `Lexeme.Stands`, `Part`, `parts`, `LineOpen`, `Lexeme.Gives`,
`Accounted`.
Key theorems: `lexemes_eq_iff`, `Lexeme.Ends.apart`, `Divides.stands`, `existsUnique_part`,
`token_mem_piecesFrom_iff`, `token_mem_pieces_of_part_iff`, `pieces_accounted`.
-/
import Mathlib
import Parsing.Proofs.Source.Reads
import Parsing.Source.Brackets

namespace Parsing.Source

open Text

/-! ### Texts and their lexemes -/

/-- Whether the text falls into the lexemes. -/
inductive Divides [Brackets] : List Lexeme → List Char → Prop
  | nil : Divides [] []
  | cons {l : Lexeme} {ls : List Lexeme} {after : List Char} (h : l.Ends after)
      (hs : Divides ls after) : Divides (l :: ls) (l.chars ++ after)

section

variable [Brackets] {l l' : Lexeme} {ls : List Lexeme} {cs before after : List Char} {c : Char}

theorem divides_lexemes (cs : List Char) : Divides (lexemes cs) cs := by
  fun_induction lexemes cs with
  | case1 => exact .nil
  | case2 c cs ih =>
    have h : Divides _ _ := .cons (Lexeme.ends_first c cs) ih
    rwa [Lexeme.chars_first] at h

/-- **The lexemes of a text are the only ones that it falls into.** -/
theorem lexemes_eq_iff : lexemes cs = ls ↔ Divides ls cs := by
  constructor
  · rintro rfl
    exact divides_lexemes cs
  · intro h
    induction h with
    | nil => simp [lexemes]
    | cons h _ ih => rw [h.lexemes_append, ih]

theorem Divides.chars_ne_nil (h : Divides ls cs) : ∀ l ∈ ls, l.chars ≠ [] := by
  induction h with
  | nil => simp
  | cons h _ ih => exact List.forall_mem_cons.mpr ⟨h.chars_ne_nil, ih⟩

/-- The class of the characters that a word or an operator could be made longer by. -/
def Lexeme.runClass : Lexeme → Char → Bool
  | word _ => isWordChar
  | operator _ => isOperative
  | _ => fun _ => false

/-- Whether the lexeme stands between the texts `before` and `after`: it is one of its class, it
ends where `after` begins, and what is before it does not belong to the same run. -/
structure Lexeme.Stands (l : Lexeme) (before after : List Char) : Prop where
  ends : l.Ends after
  begins : ∀ c ∈ before.getLast?, l.runClass c = false

/-! ### Where words and operators begin -/

variable {p : Char → Bool}

/-- Blanks, brackets and quotes are of neither class that has runs of more than blanks. -/
theorem run_eq_false (hp : p = isWordChar ∨ p = isOperative)
    (hc : isBlank c = true ∨ isBracket c = true ∨ isQuote c = true) : p c = false := by
  rcases hp with rfl | rfl
  · rcases hc with hc | hc | hc
    · exact isWordChar_of_isBlank hc
    · exact isWordChar_of_isBracket hc
    · exact isWordChar_of_isQuote hc
  · rcases hc with hc | hc | hc <;> simp [isOperative, hc]

/-- The last character of a lexeme is not of the class that the text behind it begins with. -/
theorem Lexeme.Ends.getLast?_eq_false (h : l.Ends after) (hp : p = isWordChar ∨ p = isOperative)
    {d : Char} (hd : d ∈ after.head?) (hpd : p d = true) : ∀ c ∈ l.chars.getLast?, p c = false := by
  intro c hc
  cases h with
  | word h =>
    have hword := h.all c (List.mem_of_getLast? hc)
    rcases hp with rfl | rfl
    · rw [h.stops d hd] at hpd
      cases hpd
    · simp [isOperative, hword]
  | operator h =>
    have hop := h.all c (List.mem_of_getLast? hc)
    rcases hp with rfl | rfl
    · exact (isOperative_iff.mp hop).1
    · rw [h.stops d hd] at hpd
      cases hpd
  | bracket h =>
    obtain rfl : _ = c := Option.some.inj hc
    exact run_eq_false hp (.inr (.inl h))
  | blank h => exact run_eq_false hp (.inl (h.all c (List.mem_of_getLast? hc)))
  | @quoted delim content hq =>
    rw [chars, List.getLast?_concat] at hc
    obtain rfl : delim = c := Option.some.inj hc
    exact run_eq_false hp (.inr (.inr hq))
  | brokenOff =>
    obtain rfl : '\n' = c := by simpa [chars, List.getLast?_cons] using hc
    exact run_eq_false hp (.inl isBlank_newline)
  | unfinished => cases hd
  | comment _ hafter =>
    rw [hafter d hd, run_eq_false hp (.inl isBlank_newline)] at hpd
    cases hpd

/-- **A word or an operator begins where the lexeme before it ends.** -/
theorem Lexeme.Ends.apart (h : l.Ends (l'.chars ++ after)) (h' : l'.Ends after) :
    ∀ c ∈ l.chars.getLast?, l'.runClass c = false := by
  cases h' with
  | word h' =>
    obtain ⟨d, cs, rfl, hd, -⟩ := h'.exists_cons
    exact h.getLast?_eq_false (.inl rfl) rfl hd
  | operator h' =>
    obtain ⟨d, cs, rfl, hd, -⟩ := h'.exists_cons
    exact h.getLast?_eq_false (.inr rfl) rfl hd
  | bracket | blank | quoted | brokenOff | unfinished | comment => exact fun _ _ => rfl

end

/-! ### Parts with their places -/

/-- The length of a text in bytes is that of its UTF-8 form. -/
theorem byteLength_toList (s : String) : byteLength s.toList = s.utf8ByteSize := by
  suffices h : ∀ cs : List Char, byteLength cs = (String.ofList cs).utf8ByteSize by
    rw [h, String.ofList_toList]
  intro cs
  induction cs with
  | nil => rfl
  | cons c cs ih =>
    rw [String.ofList_cons, String.utf8ByteSize_append, String.utf8ByteSize_singleton, byteLength,
      ih]

/-- A lexeme and the byte of the text that it begins at. -/
structure Part where
  start : Nat
  lexeme : Lexeme

/-- The byte behind the part. -/
def Part.stop (p : Part) : Nat := p.start + p.lexeme.size

/-- The parts of a text that continues with the given lexemes at byte `pos`. -/
def partsFrom (pos : Nat) : List Lexeme → List Part
  | [] => []
  | l :: ls => ⟨pos, l⟩ :: partsFrom (pos + l.size) ls

/-- The parts of a text. -/
def parts [Brackets] (s : String) : List Part := partsFrom 0 (lexemes s.toList)

section

variable {l : Lexeme} {ls : List Lexeme} {cs before after : List Char} {pos k : Nat} {p : Part}

theorem Lexeme.size_pos (h : l.chars ≠ []) : 0 < l.size := by
  obtain ⟨c, cs, h⟩ := List.exists_cons_of_ne_nil h
  have := c.utf8Size_pos
  rw [size, h, byteLength]
  omega

theorem le_start_of_mem_partsFrom (h : p ∈ partsFrom pos ls) : pos ≤ p.start := by
  induction ls generalizing pos with
  | nil => cases h
  | cons l ls ih =>
    rcases List.mem_cons.mp h with rfl | h
    · exact Nat.le_refl pos
    · have := ih h
      omega

/-- **Every byte is in exactly one part.** -/
theorem existsUnique_part (hle : pos ≤ k) (hlt : k < pos + byteLength (ls.flatMap Lexeme.chars)) :
    ∃! p, p ∈ partsFrom pos ls ∧ p.start ≤ k ∧ k < p.stop := by
  induction ls generalizing pos with
  | nil => exact absurd hlt (by simpa [byteLength] using hle)
  | cons l ls ih =>
    rw [List.flatMap_cons, byteLength_append] at hlt
    by_cases hk : k < pos + l.size
    · refine ⟨⟨pos, l⟩, ⟨List.mem_cons_self, hle, hk⟩, ?_⟩
      rintro p ⟨hp, hstart, -⟩
      rcases List.mem_cons.mp hp with rfl | hp
      · rfl
      · have := le_start_of_mem_partsFrom hp
        omega
    · have hle' : pos + l.size ≤ k := Nat.le_of_not_lt hk
      have hlt' : k < pos + l.size + byteLength (ls.flatMap Lexeme.chars) := by
        rw [Lexeme.size]
        omega
      obtain ⟨p, ⟨hp, hin⟩, huniq⟩ := ih hle' hlt'
      refine ⟨p, ⟨List.mem_cons_of_mem _ hp, hin⟩, ?_⟩
      rintro q ⟨hq, hstart, hstop⟩
      rcases List.mem_cons.mp hq with rfl | hq
      · exact absurd hstop hk
      · exact huniq q ⟨hq, hstart, hstop⟩

/-- **Every part stands where it begins in the text.** -/
theorem Divides.stands [Brackets] (h : Divides ls after)
    (hbefore : ∀ l ∈ ls.head?, ∀ c ∈ before.getLast?, l.runClass c = false) :
    ∀ p ∈ partsFrom (byteLength before) ls, ∃ before' after',
      before ++ after = before' ++ (p.lexeme.chars ++ after') ∧ p.start = byteLength before' ∧
        p.lexeme.Stands before' after' := by
  induction h generalizing before with
  | nil => intro p hp; cases hp
  | @cons l ls after h hs ih =>
    intro p hp
    rcases List.mem_cons.mp hp with rfl | hp
    · exact ⟨before, after, rfl, rfl, h, hbefore l rfl⟩
    · have hlast : (before ++ l.chars).getLast? = l.chars.getLast? := by
        rw [List.getLast?_append, List.getLast?_eq_some_getLast h.chars_ne_nil]
        rfl
      have hnext : ∀ l' ∈ ls.head?, ∀ c ∈ (before ++ l.chars).getLast?, l'.runClass c = false := by
        rw [hlast]
        intro l' hl'
        cases hs with
        | nil => cases hl'
        | cons h' =>
          obtain rfl := Option.some.inj hl'
          exact h.apart h'
      rw [Lexeme.size, ← byteLength_append] at hp
      obtain ⟨before', after', heq, hstart, hstands⟩ := ih hnext p hp
      exact ⟨before', after', by rw [← heq, List.append_assoc], hstart, hstands⟩

end

/-- The parts of a text stand where they begin. -/
theorem parts_stand [Brackets] (s : String) : ∀ p ∈ parts s, ∃ before after,
    s.toList = before ++ (p.lexeme.chars ++ after) ∧ p.start = byteLength before ∧
      p.lexeme.Stands before after := by
  have hfirst : ∀ l ∈ (lexemes s.toList).head?, ∀ c ∈ ([] : List Char).getLast?,
      l.runClass c = false := nofun
  exact (divides_lexemes s.toList).stands hfirst

/-! ### What the parts give -/

/-- The first byte of a piece. -/
def Piece.start : Piece → Nat
  | token start _ _ => start
  | unclosedQuote pos => pos

/-- Whether the piece begins before another one, and a token also stops before it. -/
def Piece.Precedes : Piece → Piece → Prop
  | token start _ stop, q => start < q.start ∧ stop ≤ q.start
  | unclosedQuote pos, q => pos < q.start

/-- Whether the pieces leave a line open: some token is among them, and the last one is no line
end. -/
def LeavesOpen (ps : List Piece) : Prop :=
  ∃ t ∈ (ps.filterMap Piece.token?).getLast?, t ≠ .lineEnd

/-- Whether a line is open at the byte `k`: the pieces before it leave one open. -/
def LineOpen (ps : List Piece) (k : Nat) : Prop := LeavesOpen (ps.filter fun p => p.start < k)

/-- Whether the lexeme stands for the token, where a line is open or not. -/
inductive Lexeme.Gives (lineOpen : Prop) : Lexeme → Token → Prop
  | word (run : List Char) : Gives lineOpen (word run) (.symbol (String.ofList run))
  | arrow : Gives lineOpen (operator ['-', '>']) .arrow
  | bar : Gives lineOpen (operator ['|']) .bar
  | semicolon : Gives lineOpen (operator [';']) .lineEnd
  | operator {run : List Char} (h : run ∉ [['-', '>'], ['|'], [';']]) :
      Gives lineOpen (operator run) (.symbol (String.ofList run))
  | bracket (c : Char) : Gives lineOpen (bracket c) (.symbol (String.ofList [c]))
  | quoted (delim : Char) (content : List Char) :
      Gives lineOpen (quoted delim content) (.symbol (String.ofList content))
  | blank {run : List Char} (hrun : '\n' ∈ run) (hopen : lineOpen) :
      Gives lineOpen (blank run) .lineEnd

theorem Lexeme.token?_eq_some_iff {l : Lexeme} {fresh : Bool} {t : Token} :
    l.token? fresh = some t ↔ l.Gives (fresh = false) t := by
  constructor
  · intro h
    cases l with
    | word | bracket | quoted => cases h; constructor
    | unclosed | comment => cases h
    | blank run =>
      by_cases hrun : '\n' ∈ run ∧ fresh = false
      · rw [token?, if_pos hrun] at h
        cases h
        exact .blank hrun.1 hrun.2
      · rw [token?, if_neg hrun] at h
        cases h
    | operator run =>
      rw [token?] at h
      split_ifs at h with harrow hbar hend
      · cases h; subst harrow; exact .arrow
      · cases h; subst hbar; exact .bar
      · cases h; subst hend; exact .semicolon
      · cases h; exact .operator (by simp [harrow, hbar, hend])
  · rintro (_ | _ | _ | _ | h | _ | _ | ⟨hrun, hopen⟩)
    case operator run =>
      simp only [List.mem_cons, List.not_mem_nil, or_false, not_or] at h
      simp [token?, h]
    case blank => exact if_pos ⟨hrun, hopen⟩
    all_goals rfl

/-! ### Pieces one lexeme after the other -/

section

variable {l : Lexeme} {ls : List Lexeme} {pos start stop k : Nat} {fresh : Bool} {t : Token}
  {front all ps : List Piece} {q : Piece}

namespace Lexeme

theorem piece?_eq_token_iff : l.piece? pos fresh = some (.token start t stop) ↔
    pos = start ∧ pos + l.size = stop ∧ l.token? fresh = some t := by
  have hmap : (l.token? fresh).map (fun t => Piece.token pos t (pos + l.size)) =
      some (.token start t stop) ↔
        pos = start ∧ pos + l.size = stop ∧ l.token? fresh = some t := by
    rw [Option.map_eq_some_iff]
    constructor
    · rintro ⟨t', ht, h⟩
      cases h
      exact ⟨rfl, rfl, ht⟩
    · rintro ⟨rfl, rfl, ht⟩
      exact ⟨t, ht, rfl⟩
  cases l with
  | unclosed => simp [piece?, token?]
  | _ => exact hmap

theorem piece?_eq_unclosedQuote_iff : l.piece? pos fresh = some (.unclosedQuote k) ↔
    pos = k ∧ ∃ delim rest, l = unclosed delim rest := by
  cases l <;> simp [piece?]

theorem piece?_bind_token? (pos : Nat) (fresh : Bool) (l : Lexeme) :
    (l.piece? pos fresh).bind Piece.token? = l.token? fresh := by
  have hmap : ((l.token? fresh).map (fun t => Piece.token pos t (pos + l.size))).bind
      Piece.token? = l.token? fresh := by
    cases l.token? fresh <;> rfl
  cases l with
  | unclosed => rfl
  | _ => exact hmap

/-- A piece begins where its lexeme does, and comes before what follows the lexeme. -/
theorem precedes_of_piece? (h : l.piece? pos fresh = some q) :
    q.start = pos ∧ ∀ q', pos + l.size ≤ q'.start → pos < q'.start → q.Precedes q' := by
  cases q with
  | token start t stop =>
    obtain ⟨rfl, rfl, -⟩ := piece?_eq_token_iff.mp h
    exact ⟨rfl, fun q' hle hlt => ⟨hlt, hle⟩⟩
  | unclosedQuote k =>
    obtain ⟨rfl, -⟩ := piece?_eq_unclosedQuote_iff.mp h
    exact ⟨rfl, fun q' _ hlt => hlt⟩

/-- A line is open behind a lexeme if the pieces up to it leave one open. -/
theorem leavesFresh_eq_false_iff (l : Lexeme) (pos : Nat)
    (h : fresh = false ↔ LeavesOpen front) :
    l.leavesFresh fresh = false ↔ LeavesOpen (front ++ (l.piece? pos fresh).toList) := by
  have htoken : (l.piece? pos fresh).toList.filterMap Piece.token? = (l.token? fresh).toList := by
    rw [← piece?_bind_token? pos fresh l]
    cases l.piece? pos fresh with
    | none => rfl
    | some q => cases q <;> rfl
  rw [LeavesOpen, List.filterMap_append, htoken, leavesFresh]
  cases ht : l.token? fresh with
  | none =>
    rw [Option.toList_none, List.append_nil]
    exact h
  | some t => simp

end Lexeme

/-- **The end of a text closes the line that is left open.** -/
theorem not_leavesOpen_piecesFrom (hfresh : fresh = false ↔ LeavesOpen front) :
    ¬ LeavesOpen (front ++ piecesFrom pos fresh ls) := by
  induction ls generalizing pos fresh front with
  | nil =>
    cases fresh with
    | true => simpa [piecesFrom] using hfresh
    | false => simp [piecesFrom, LeavesOpen, Piece.token?]
  | cons l ls ih =>
    rw [piecesFrom_cons, ← List.append_assoc]
    exact ih (l.leavesFresh_eq_false_iff pos hfresh)

theorem leavesOpen_nil : true = false ↔ LeavesOpen [] := by simp [LeavesOpen]

/-- No line is left open by the pieces of a text. -/
theorem not_leavesOpen_pieces [Brackets] (s : String) : ¬ LeavesOpen (pieces s) :=
  not_leavesOpen_piecesFrom leavesOpen_nil

/-- Pieces that leave no line open lead to the start of a line. -/
theorem Reaches.eq_lineStart {place : Place} {rs : List Rule} (h : Reaches ps place rs)
    (hclosed : ¬ LeavesOpen ps) : place = .lineStart := by
  by_contra hplace
  obtain ⟨start, t, stop, hlast, -⟩ := h.exists_last hplace
  obtain ⟨front, rfl⟩ := List.getLast?_eq_some_iff.mp hlast
  have ht : t = .lineEnd := by
    by_contra ht
    exact hclosed ⟨t, by simp [Piece.token?], ht⟩
  obtain ⟨place', _, ts', _, -, hts, hpass, -⟩ := reaches_append_iff.mp h
  obtain rfl : ts' = [t] := (List.map_inj_right fun _ _ => Option.some.inj).mp hts.symm
  obtain ⟨_, _, _, hnext, hend, -⟩ := Place.pass?_cons_eq_some_iff.mp hpass
  cases hend
  subst ht
  cases place' <;> cases hnext <;> exact hplace rfl

theorem le_start_of_mem_piecesFrom (h : q ∈ piecesFrom pos fresh ls) : pos ≤ q.start := by
  induction ls generalizing pos fresh with
  | nil =>
    rw [piecesFrom] at h
    split at h
    · cases h
    · rw [List.mem_singleton.mp h]
      exact Nat.le_refl pos
  | cons l ls ih =>
    rw [piecesFrom_cons, List.mem_append, Option.mem_toList] at h
    rcases h with h | h
    · exact Nat.le_of_eq (Lexeme.precedes_of_piece? h).1.symm
    · have := ih h
      omega

/-- **The pieces are in order.** -/
theorem pairwise_piecesFrom (hne : ∀ l ∈ ls, l.chars ≠ []) :
    (piecesFrom pos fresh ls).Pairwise Piece.Precedes := by
  induction ls generalizing pos fresh with
  | nil =>
    rw [piecesFrom]
    split <;> simp
  | cons l ls ih =>
    obtain ⟨hl, hls⟩ := List.forall_mem_cons.mp hne
    have hsize := Lexeme.size_pos hl
    rw [piecesFrom_cons]
    refine List.pairwise_append.mpr ⟨?_, ih hls, fun q hq q' hq' => ?_⟩
    · cases l.piece? pos fresh <;> simp
    · have hle := le_start_of_mem_piecesFrom hq'
      exact (Lexeme.precedes_of_piece? (Option.mem_toList.mp hq)).2 q' hle (by omega)

theorem unclosed_mem_piecesFrom_iff :
    .unclosedQuote k ∈ piecesFrom pos fresh ls ↔
      ∃ p ∈ partsFrom pos ls, p.start = k ∧ ∃ delim rest, p.lexeme = .unclosed delim rest := by
  induction ls generalizing pos fresh with
  | nil => cases fresh <;> simp [piecesFrom, partsFrom]
  | cons l ls ih =>
    rw [piecesFrom_cons, List.mem_append, Option.mem_toList, Lexeme.piece?_eq_unclosedQuote_iff,
      ih, partsFrom, List.exists_mem_cons_iff]

/-- Whether a line is open at the byte that the pieces have come to is told by those before. -/
theorem fresh_eq_false_iff (hall : all = front ++ piecesFrom pos fresh ls)
    (hfront : ∀ q ∈ front, q.start < pos) (hfresh : fresh = false ↔ LeavesOpen front) :
    fresh = false ↔ LineOpen all pos := by
  have hf : front.filter (fun q => q.start < pos) = front :=
    List.filter_eq_self.mpr fun q hq => decide_eq_true (hfront q hq)
  have hb : (piecesFrom pos fresh ls).filter (fun q => q.start < pos) = [] :=
    List.filter_eq_nil_iff.mpr fun q hq => by simpa using le_start_of_mem_piecesFrom hq
  rw [LineOpen, hall, List.filter_append, hf, hb, List.append_nil, hfresh]

/-- **The tokens are those that the parts stand for, and a line end that closes the last line.** The
pieces before are `front`, and all pieces together are `all`. -/
theorem token_mem_piecesFrom_iff (hall : all = front ++ piecesFrom pos fresh ls)
    (hfront : ∀ q ∈ front, q.start < pos) (hfresh : fresh = false ↔ LeavesOpen front)
    (hne : ∀ l ∈ ls, l.chars ≠ []) :
    .token start t stop ∈ piecesFrom pos fresh ls ↔
      (∃ p ∈ partsFrom pos ls, p.start = start ∧ p.stop = stop ∧
        p.lexeme.Gives (LineOpen all start) t) ∨
      (start = pos + byteLength (ls.flatMap Lexeme.chars) ∧ stop = start ∧ t = .lineEnd ∧
        LineOpen all start) := by
  induction ls generalizing pos fresh front with
  | nil =>
    have hopen := fresh_eq_false_iff hall hfront hfresh
    have hend : .token start t stop ∈ piecesFrom pos fresh [] ↔
        fresh = false ∧ start = pos ∧ stop = pos ∧ t = .lineEnd := by
      cases fresh <;> simp [piecesFrom, and_comm]
    rw [hend]
    constructor
    · rintro ⟨hf, rfl, rfl, rfl⟩
      exact .inr ⟨rfl, rfl, rfl, hopen.mp hf⟩
    · rintro (⟨p, hp, -⟩ | ⟨rfl, rfl, rfl, ho⟩)
      · cases hp
      · exact ⟨hopen.mpr ho, rfl, rfl, rfl⟩
  | cons l ls ih =>
    obtain ⟨hl, hls⟩ := List.forall_mem_cons.mp hne
    have hsize := Lexeme.size_pos hl
    have hfront' : ∀ q ∈ front ++ (l.piece? pos fresh).toList, q.start < pos + l.size := by
      intro q hq
      rcases List.mem_append.mp hq with hq | hq
      · have := hfront q hq
        omega
      · have := (Lexeme.precedes_of_piece? (Option.mem_toList.mp hq)).1
        omega
    have hall' : all = front ++ (l.piece? pos fresh).toList ++
        piecesFrom (pos + l.size) (l.leavesFresh fresh) ls := by
      rw [hall, piecesFrom_cons, List.append_assoc]
    have hrest := ih hall' hfront' (l.leavesFresh_eq_false_iff pos hfresh) hls
    have hopen := fresh_eq_false_iff hall hfront hfresh
    rw [piecesFrom_cons, List.mem_append, Option.mem_toList, Lexeme.piece?_eq_token_iff, hrest,
      partsFrom, List.exists_mem_cons_iff, Lexeme.token?_eq_some_iff, propext hopen, or_assoc,
      List.flatMap_cons, byteLength_append, ← Nat.add_assoc]
    refine or_congr_left (and_congr_right fun hstart => ?_)
    rw [hstart]
    rfl

end

/-! ### Accounting for a text -/

/-- Whether the pieces are what the text gives, told by the parts that it falls into. -/
structure Accounted [Brackets] (s : String) (division : List Part) (ps : List Piece) : Prop where
  /-- Every byte is in exactly one part. -/
  byte : ∀ k < s.utf8ByteSize, ∃! p, p ∈ division ∧ p.start ≤ k ∧ k < p.stop
  /-- A part is made of whole characters of the text and is a lexeme of its class there. -/
  stands : ∀ p ∈ division, ∃ before after, s.toList = before ++ (p.lexeme.chars ++ after) ∧
    p.start = byteLength before ∧ p.lexeme.Stands before after
  /-- The pieces are in order and do not overlap. -/
  ordered : ps.Pairwise Piece.Precedes
  /-- The tokens are those that the parts stand for, where they stand, and a line end without width
  that closes the last line. -/
  token_iff : ∀ start t stop, .token start t stop ∈ ps ↔
    (∃ p ∈ division, p.start = start ∧ p.stop = stop ∧ p.lexeme.Gives (LineOpen ps start) t) ∨
    (start = s.utf8ByteSize ∧ stop = start ∧ t = .lineEnd ∧ LineOpen ps start)
  /-- The unclosed quotations are reported where they begin. -/
  unclosed_iff : ∀ pos, .unclosedQuote pos ∈ ps ↔
    ∃ p ∈ division, p.start = pos ∧ ∃ delim rest, p.lexeme = .unclosed delim rest
  /-- A part that no token takes up is a run of blanks that ends no line, a comment or an unclosed
  quotation. -/
  skipped_iff : ∀ p ∈ division, (¬ ∃ t, .token p.start t p.stop ∈ ps) ↔
    (∃ run, p.lexeme = .blank run ∧ ¬ ('\n' ∈ run ∧ LineOpen ps p.start)) ∨
    (∃ text, p.lexeme = .comment text) ∨ ∃ delim rest, p.lexeme = .unclosed delim rest

/-- The lexemes that stand for no token. -/
theorem Lexeme.not_gives_iff {l : Lexeme} {lineOpen : Prop} :
    (¬ ∃ t, l.Gives lineOpen t) ↔ (∃ run, l = blank run ∧ ¬ ('\n' ∈ run ∧ lineOpen)) ∨
      (∃ text, l = comment text) ∨ ∃ delim rest, l = unclosed delim rest := by
  constructor
  · intro h
    cases l with
    | word run => exact absurd ⟨_, .word run⟩ h
    | bracket c => exact absurd ⟨_, .bracket c⟩ h
    | quoted delim content => exact absurd ⟨_, .quoted delim content⟩ h
    | operator run =>
      refine absurd ?_ h
      by_cases hrun : run ∈ [['-', '>'], ['|'], [';']]
      · simp only [List.mem_cons, List.not_mem_nil, or_false] at hrun
        rcases hrun with rfl | rfl | rfl
        · exact ⟨_, .arrow⟩
        · exact ⟨_, .bar⟩
        · exact ⟨_, .semicolon⟩
      · exact ⟨_, .operator hrun⟩
    | blank run => exact .inl ⟨run, rfl, fun hb => h ⟨_, .blank hb.1 hb.2⟩⟩
    | comment text => exact .inr (.inl ⟨text, rfl⟩)
    | unclosed delim rest => exact .inr (.inr ⟨delim, rest, rfl⟩)
  · rintro (⟨run, rfl, h⟩ | ⟨text, rfl⟩ | ⟨delim, rest, rfl⟩) ⟨t, ht⟩
    · cases ht with
      | blank hrun hopen => exact h ⟨hrun, hopen⟩
    · cases ht
    · cases ht

/-! ### The pieces of a text -/

section

variable [Brackets] {s : String}

theorem byteLength_lexemes (s : String) :
    byteLength ((lexemes s.toList).flatMap Lexeme.chars) = s.utf8ByteSize := by
  rw [flatMap_chars_lexemes, byteLength_toList]

theorem existsUnique_part_of_lt {k : Nat} (hk : k < s.utf8ByteSize) :
    ∃! p, p ∈ parts s ∧ p.start ≤ k ∧ k < p.stop := by
  apply existsUnique_part (Nat.zero_le k)
  rwa [Nat.zero_add, byteLength_lexemes]

/-- A part is not empty, and ends no later than the text. -/
theorem start_lt_stop_of_mem_parts {p : Part} (hp : p ∈ parts s) :
    p.start < p.stop ∧ p.stop ≤ s.utf8ByteSize := by
  obtain ⟨before, after, heq, hstart, hends, -⟩ := parts_stand s p hp
  refine ⟨Nat.lt_add_of_pos_right (Lexeme.size_pos hends.chars_ne_nil), ?_⟩
  rw [← byteLength_toList, heq, byteLength_append, byteLength_append, Part.stop, hstart,
    Lexeme.size]
  omega

theorem token_mem_pieces_iff {start stop : Nat} {t : Token} : .token start t stop ∈ pieces s ↔
    (∃ p ∈ parts s, p.start = start ∧ p.stop = stop ∧
      p.lexeme.Gives (LineOpen (pieces s) start) t) ∨
    (start = s.utf8ByteSize ∧ stop = start ∧ t = .lineEnd ∧ LineOpen (pieces s) start) := by
  have hne := (divides_lexemes s.toList).chars_ne_nil
  have h : .token start t stop ∈ pieces s ↔ _ :=
    token_mem_piecesFrom_iff rfl (List.forall_mem_nil _) leavesOpen_nil hne
  rwa [byteLength_lexemes, Nat.zero_add] at h

theorem token_mem_pieces_of_part_iff {p : Part} (hp : p ∈ parts s) {t : Token} :
    .token p.start t p.stop ∈ pieces s ↔ p.lexeme.Gives (LineOpen (pieces s) p.start) t := by
  obtain ⟨hlt, hle⟩ := start_lt_stop_of_mem_parts hp
  refine token_mem_pieces_iff.trans ⟨?_, fun ht => .inl ⟨p, hp, rfl, rfl, ht⟩⟩
  -- no other part begins where this one does, and the end of the text is behind it
  rintro (⟨q, hq, hstart, hstop, ht⟩ | ⟨-, hstop, -⟩)
  · have hin : q ∈ parts s ∧ q.start ≤ p.start ∧ p.start < q.stop :=
      ⟨hq, Nat.le_of_eq hstart, hstop ▸ hlt⟩
    have hbyte := existsUnique_part_of_lt (Nat.lt_of_lt_of_le hlt hle)
    rwa [hbyte.unique hin ⟨hp, Nat.le_refl _, hlt⟩] at ht
  · omega

/-- **Nothing of a text is lost or made up.** -/
theorem pieces_accounted (s : String) : Accounted s (parts s) (pieces s) where
  byte _ hk := existsUnique_part_of_lt hk
  stands := parts_stand s
  ordered := pairwise_piecesFrom (divides_lexemes s.toList).chars_ne_nil
  token_iff _ _ _ := token_mem_pieces_iff
  unclosed_iff _ := unclosed_mem_piecesFrom_iff
  skipped_iff p hp := by
    rw [← Lexeme.not_gives_iff]
    simp only [token_mem_pieces_of_part_iff hp]

end

/-- The theorem with Unicode's brackets, at a line that ends in a quotation which is left open. -/
theorem pieces_accounted_open :
    let s := "S->(b) \x27x"
    pieces s = [.token 0 (.symbol "S") 1, .token 1 .arrow 3, .token 3 (.symbol "(") 4,
      .token 4 (.symbol "b") 5, .token 5 (.symbol ")") 6, .unclosedQuote 7,
      .token 9 .lineEnd 9] ∧ Accounted s (parts s) (pieces s) :=
  ⟨by cbv, pieces_accounted _⟩

end Parsing.Source
