/-
# What is wrong with a text that has no rules

The pieces of a text leave no line open, so reading does not come to their end in the middle of a
line, and what is reported is never the end of the text. It is the first piece that no line goes on
with (`exists_refused`): an unclosed quotation, reported at its opening quote, or a token, reported
where it begins and by its name.

Key definitions: `OpensUnclosed`.
Key theorems: `exists_refused`, `opensUnclosed_of_mem_pieces`, `rules_error`.
-/
import Mathlib
import Parsing.Source.Load
import Parsing.Proofs.Source.Parts

namespace Parsing

namespace Source

section

variable [Brackets]

/-- Whether a quote that opens a lexeme stands at the byte `pos` of the text, without a quote to
match it before the next line feed or the end. -/
def OpensUnclosed (s : String) (pos : Nat) : Prop :=
  ∃ before delim after, s.toList = before ++ delim :: after ∧ pos = byteLength before ∧
    isQuote delim = true ∧ delim ∉ after.takeWhile (· != '\n') ∧ ∃ p ∈ parts s, p.start = pos

/-- An unclosed quotation is one that no quote closes. -/
theorem opensUnclosed_of_mem_pieces {s : String} {pos : Nat}
    (h : .unclosedQuote pos ∈ pieces s) : OpensUnclosed s pos := by
  obtain ⟨p, hp, rfl, delim, rest, hl⟩ := unclosed_mem_piecesFrom_iff.mp h
  obtain ⟨before, after, hs, hstart, hends, -⟩ := parts_stand s p hp
  rw [hl] at hs hends
  refine ⟨before, delim, rest ++ after, hs, hstart, ?_⟩
  cases hends with
  | @brokenOff _ rest hq hrest =>
    have htake : (rest ++ '\n' :: after).takeWhile (· != '\n') = rest :=
      (Text.takeWhile_dropWhile_append (fun c hc => by simpa using (hrest c hc).2) (by simp)).1
    refine ⟨hq, ?_, p, hp, rfl⟩
    rw [List.append_assoc, List.singleton_append, htake]
    exact fun hmem => (hrest delim hmem).1 rfl
  | unfinished hq hrest =>
    refine ⟨hq, fun hmem => ?_, p, hp, rfl⟩
    have hmem := (List.takeWhile_sublist _).subset hmem
    rw [List.append_nil] at hmem
    exact (hrest delim hmem).1 rfl

/-- **A text that is refused is refused at a piece, never at its end.** -/
theorem exists_refused {s : String} {r : Rejection} (h : readLines (pieces s) = .error r) :
    ∃ front p rest, pieces s = front ++ p :: rest ∧ Refused front p r := by
  by_cases hv : Viable (pieces s)
  · obtain ⟨place, rs, hreach⟩ := viable_iff.mp hv
    obtain rfl := hreach.eq_lineStart (not_leavesOpen_pieces s)
    rw [hreach.readLines_lineStart] at h
    cases h
  · obtain ⟨front, p, rest, heq, hfront, hp⟩ := exists_first_refused hv
    obtain ⟨r', hr', href⟩ := readLines_first_refused hfront hp
    rw [heq, hr'] at h
    cases h
    exact ⟨front, p, rest, heq, href⟩

end

end Source

/-- No token is named like the end of a text or like text that is no token. -/
theorem Found.text_token_ne (t : Source.Token) :
    (token t).text ≠ endOfInput.text ∧ (token t).text ≠ invalidToken.text := by
  cases t with
  | arrow | bar | lineEnd => decide
  | symbol s =>
    -- the first letters differ
    constructor <;> intro h <;> simpa [text, Source.Token.text] using congrArg (·.toList.head?) h

/-- **What is wrong with a text that has no rules** is a quote that opens a lexeme and is not matched
in its line, or a token that the text gives, at its first byte and under its name; it is never
the end of the text or text that is no token. -/
theorem Source.rules_error [Brackets] {s : String} {e : LoadError} (h : rules s = .error e) :
    ((∃ pos, e = .unclosedQuote pos ∧ OpensUnclosed s pos) ∨
      ∃ start t stop expected, .token start t stop ∈ pieces s ∧
        e = .unexpected start (.token t) expected) ∧
    ∀ pos found expected, e = .unexpected pos found expected →
      found.text ≠ Found.endOfInput.text ∧ found.text ≠ Found.invalidToken.text := by
  obtain ⟨r, hr, rfl⟩ : ∃ r, readLines (pieces s) = .error r ∧ e = .ofRejection r := by
    rw [rules] at h
    split at h
    · cases h
    · next r hr => exact ⟨r, hr, (Except.error.inj h).symm⟩
  obtain ⟨front, p, rest, heq, href⟩ := exists_refused hr
  have hp : p ∈ pieces s := by
    rw [heq]
    exact List.mem_append_right _ List.mem_cons_self
  cases href with
  | quote pos => exact ⟨.inl ⟨pos, rfl, opensUnclosed_of_mem_pieces hp⟩, nofun⟩
  | token start t stop =>
    refine ⟨.inr ⟨start, t, stop, _, hp, rfl⟩, ?_⟩
    rintro pos found expected ⟨⟩
    exact Found.text_token_ne t

/-- The theorem at a text with an arrow where a line begins, and at one whose last line is left open
by a quotation. -/
theorem Source.rules_error_arrow :
    let s := "S -> a # b\n-> c"
    let s' := "S -> \x22\x27\x22 \x27a"
    (rules s = .error (.unexpected 11 (.token .arrow) ["EOL", "SYM"]) ∧
      ∃ stop, .token 11 .arrow stop ∈ pieces s) ∧
    rules s' = .error (.unclosedQuote 9) ∧ OpensUnclosed s' 9 := by
  intro s s'
  have h : rules s = .error (.unexpected 11 (.token .arrow) ["EOL", "SYM"]) := by cbv
  have h' : rules s' = .error (.unclosedQuote 9) := by cbv
  refine ⟨⟨h, ?_⟩, h', ?_⟩
  · obtain ⟨_, heq, -⟩ | ⟨start, t, stop, _, hmem, heq⟩ := (rules_error h).1
    · cases heq
    · cases heq
      exact ⟨stop, hmem⟩
  · obtain ⟨pos, heq, hopens⟩ | ⟨_, _, _, _, _, heq⟩ := (rules_error h').1
    · cases heq
      exact hopens
    · cases heq

end Parsing
