/-
# Rules on lines of their own

A rule whose symbols are not empty and have no blanks is read back from its text: the first arrow
between blanks in the text is the one that was put there, whatever arrows the symbols hold. And
whatever line is read, the symbols that it gives are of this kind. When the symbols are plain, the
text is also a text of rules, with one line, and loading it gives the one rule.

Key definitions: `Symbol.Unbroken`.
Key theorems: `Rule.ofLine_text`, `Rule.unbroken_of_ofLine`, `Rule.rules_text`,
`Rule.line_round_trip`.
-/
import Parsing.Proofs.Rule.Division
import Parsing.Proofs.Source.Reload

namespace Parsing

open Text Source

/-- Whether the symbol is not empty and has no blanks. -/
def Symbol.Unbroken (s : Symbol) : Prop := s.toList ≠ [] ∧ ∀ c ∈ s.toList, isBlank c = false

theorem Source.Plain.unbroken [Brackets] {s : Symbol} (h : Plain s) : s.Unbroken := by
  rcases h with ⟨hne, hword⟩ | ⟨hlen, hbracket⟩ | ⟨hne, hop, -⟩
  · refine ⟨hne, fun c hc => ?_⟩
    by_contra hblank
    have hword := List.all_eq_true.mp hword c hc
    rw [isWordChar_of_isBlank (by simpa using hblank)] at hword
    contradiction
  · exact ⟨List.ne_nil_of_length_pos (by omega),
      fun c hc => isBlank_of_isBracket (List.all_eq_true.mp hbracket c hc)⟩
  · exact ⟨hne, fun c hc => (isOperative_iff.mp (List.all_eq_true.mp hop c hc)).2.1⟩

namespace Rule

variable {r : Rule} {line : String}

/-! ### Texts of rules as lines -/

theorem toList_text (r : Rule) :
    r.text.toList = r.lhs.toList ++ ' ' :: '-' :: '>' :: ' ' :: (Symbol.row r.rhs).toList := by
  simp [text]

/-- The words of a row of unbroken symbols are the symbols. -/
theorem words_row {xs : List Symbol} (h : ∀ s ∈ xs, s.Unbroken) :
    (words (Symbol.row xs).toList).map String.ofList = xs := by
  have hrow : (Symbol.row xs).toList = [' '].intercalate (xs.map String.toList) := by
    simp [Symbol.row, String.toList_intercalate]
  rw [hrow, words_intercalate (by simpa [Symbol.Unbroken] using h), List.map_map]
  simp [Function.comp_def]

theorem newline_notMem_row {xs : List Symbol} (h : ∀ s ∈ xs, s.Unbroken) :
    '\n' ∉ (Symbol.row xs).toList := by
  have hsymbol : ∀ s ∈ xs, '\n' ∉ s.toList := fun s hs hfeed =>
    Bool.false_ne_true (((h s hs).2 _ hfeed).symm.trans isBlank_newline)
  rw [Symbol.row, String.toList_intercalate]
  cases xs with
  | nil => simp
  | cons s xs =>
    obtain ⟨hs, hxs⟩ := List.forall_mem_cons.mp hsymbol
    rw [List.map_cons, intercalate_cons_eq, List.flatMap_map]
    simpa [hs] using hxs

/-- **A rule of unbroken symbols is read back from its text.** -/
theorem ofLine_text (h : ∀ s ∈ r.lhs :: r.rhs, s.Unbroken) : ofLine r.text = .ok r := by
  obtain ⟨⟨hne, hlhs⟩, hrhs⟩ := List.forall_mem_cons.mp h
  obtain ⟨c, cs, hc⟩ := List.exists_cons_of_ne_nil hne
  rw [hc] at hlhs
  obtain ⟨hblank, hcs⟩ := List.forall_mem_cons.mp hlhs
  have hbody : r.text.toList.dropWhile isBlank =
      c :: (cs ++ ' ' :: '-' :: '>' :: ' ' :: (Symbol.row r.rhs).toList) := by
    rw [toList_text, hc, List.cons_append, List.dropWhile_cons_of_neg (by simp [hblank])]
  have hall : ∀ d ∈ cs, (!isBlank d) = true := fun d hd => by simp [hcs d hd]
  have hstop : ∀ d ∈ (' ' :: '-' :: '>' :: ' ' :: (Symbol.row r.rhs).toList).head?,
      (!isBlank d) = false := by
    rintro d ⟨rfl⟩
    rfl
  obtain ⟨htake, hdrop⟩ := takeWhile_dropWhile_append (p := fun c => !isBlank c) hall hstop
  have hsides : sides? r.text.toList = some (r.lhs.toList, ' ' :: (Symbol.row r.rhs).toList) := by
    rw [sides?_of_cons hbody, htake, hdrop, hc]
    rfl
  have hfeed : '\n' ∉ ' ' :: (Symbol.row r.rhs).toList := by
    simpa using newline_notMem_row hrhs
  have hwords : words (' ' :: (Symbol.row r.rhs).toList) = words (Symbol.row r.rhs).toList :=
    words_cons_of_blank rfl _
  simp only [ofLine, hsides, if_neg hfeed, hwords, words_row hrhs, String.ofList_toList]

/-- **A line is read as a rule of unbroken symbols.** -/
theorem unbroken_of_ofLine (h : ofLine line = .ok r) : ∀ s ∈ r.lhs :: r.rhs, s.Unbroken := by
  unfold ofLine at h
  split at h
  · next lhs after hsides =>
    split at h
    · cases h
    · obtain rfl := Except.ok.inj h
      refine List.forall_mem_cons.mpr ⟨?_, fun s hs => ?_⟩
      · simpa [Symbol.Unbroken] using isBlank_of_sides? hsides
      · obtain ⟨w, hw, rfl⟩ := List.mem_map.mp hs
        simpa [Symbol.Unbroken] using ⟨ne_nil_of_mem_words hw, not_isBlank_of_mem_words hw⟩
  · cases h

/-! ### Texts of rules as texts to load -/

/-- The text of a rule is its left-hand side and the other tokens of its line with spaces, and a
space if nothing comes after the arrow. -/
theorem toList_text_spaced (r : Rule) : r.text.toList =
    r.lhs.toList ++ (spaced (Line.inner r.rhs []) ++ if r.rhs = [] then [' '] else []) := by
  have hbody := RuleGroup.toList_body r.rhs
  rw [toList_text]
  by_cases hrhs : r.rhs = []
  · simp [hrhs, Line.inner, spaced, Token.chars, Symbol.row]
  · rw [if_neg hrhs, String.toList_append] at hbody
    have hspaced : spaced (Line.inner r.rhs []) = ' ' :: '-' :: '>' :: spaced (r.rhs.map .symbol) := by
      simp [Line.inner, spaced, Token.chars]
    rw [if_neg hrhs, List.append_nil, hspaced, ← hbody]
    rfl

/-- **A rule of plain symbols is loaded from its text.** -/
theorem rules_text [Brackets] (h : ∀ s ∈ r.lhs :: r.rhs, Plain s) : Source.rules r.text = .ok [r] := by
  have hplain : ∀ s, .symbol s ∈ (Line.alternatives r.lhs r.rhs []).tokens → Plain s := by
    intro s hs
    refine h s ?_
    simpa [Line.tokens_alternatives, Line.symbol_mem_inner_iff] using hs
  have hend : ∀ c ∈ (if r.rhs = [] then [' '] else []).head?, isBlank c = true := by
    intro c hc
    split at hc <;> cases hc
    rfl
  have hopen : Reads false (if r.rhs = [] then [' '] else []) [.lineEnd] := by
    have hnil : Reads false [] [.lineEnd] := reads_nil_iff.mpr rfl
    split
    · exact hnil.space (by simp)
    · exact hnil
  have hlined : Lined (pieces r.text) [.alternatives r.lhs r.rhs []] := by
    rw [Lined, List.flatMap_singleton, pieces, toList_text_spaced]
    simpa using Reads.alternatives hplain hend hopen 0
  rw [Source.rules, readLines_eq_ok_iff.mpr ⟨_, hlined, rfl⟩]
  rfl

/-- **Rule lines round-trip and agree with loading.** A rule of unbroken symbols is read back from
its text, and every rule that is read from a line has unbroken symbols, so its text gives the rule
again. If the symbols are plain, loading the text gives this rule and no other. All this is about
the first way to fit a line to the form of rule lines, each run as long as it may be: a line is read
by this way, and refused if there is none. -/
theorem line_round_trip [Brackets] (r : Rule) :
    ((∀ s ∈ r.lhs :: r.rhs, s.Unbroken) → ofLine r.text = .ok r) ∧
    (∀ line, ofLine line = .ok r →
      (∀ s ∈ r.lhs :: r.rhs, s.Unbroken) ∧ ofLine r.text = .ok r) ∧
    ((∀ s ∈ r.lhs :: r.rhs, Plain s) → ofLine r.text = .ok r ∧ Source.rules r.text = .ok [r]) ∧
    (∀ line, ofLine line =
      match (divisions line.toList).head? with
      | some (lhs, rhs) => .ok ⟨String.ofList lhs, (words rhs).map String.ofList⟩
      | none => .error (.ruleLine line)) :=
  ⟨ofLine_text,
    fun _ h => ⟨unbroken_of_ofLine h, ofLine_text (unbroken_of_ofLine h)⟩,
    fun h => ⟨ofLine_text fun s hs => (h s hs).unbroken, rules_text h⟩, ofLine_eq⟩

/-- The theorem with Unicode's brackets, at a rule with two of them, an operator and a word. -/
theorem line_round_trip_brackets :
    let r : Rule := ⟨"S", ["⟨", "+=", "a_1", "⟩"]⟩
    (∀ s ∈ r.lhs :: r.rhs, Plain s) ∧ ofLine r.text = .ok r ∧ Source.rules r.text = .ok [r] := by
  intro r
  have h : ∀ s ∈ r.lhs :: r.rhs, Plain s := by decide +kernel
  exact ⟨h, (line_round_trip r).2.2.1 h⟩

end Rule

end Parsing
