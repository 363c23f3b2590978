/-
# Lexicons

A lexicon says which words belong to which category. A category is there only
with a word.

Key definitions: `Lexicon`, `Lexicon.insert`, `Lexicon.isCategory`, `Lexicon.covers`,
`Lexicon.agrees`.
-/
import Parsing.Rule

namespace Parsing

/-- Pairs of a category and a word of it. -/
structure Lexicon where
  entries : List (Symbol × String)

namespace Lexicon

/-- The lexicon without categories. -/
def empty : Lexicon := ⟨[]⟩

/-- The lexicon with one more word in a category. -/
def insert (lex : Lexicon) (category : Symbol) (word : String) : Lexicon :=
  if (category, word) ∈ lex.entries then lex else ⟨lex.entries ++ [(category, word)]⟩

/-- Whether some word belongs to the category `s`. -/
def isCategory (lex : Lexicon) (s : Symbol) : Bool := lex.entries.any fun e => e.1 = s

/-- Whether `word` belongs to `category`. -/
def covers (lex : Lexicon) (category : Symbol) (word : String) : Bool :=
  decide ((category, word) ∈ lex.entries)

/-- The categories, each once. -/
def categories (lex : Lexicon) : List Symbol := (lex.entries.map (·.1)).eraseDups

/-- Whether two lexicons have the same words in the same categories. -/
def agrees (a b : Lexicon) : Bool :=
  a.entries.all (fun e => b.covers e.1 e.2) && b.entries.all (fun e => a.covers e.1 e.2)

theorem covers_insert {lex : Lexicon} {category c : Symbol} {word w : String} :
    (lex.insert category word).covers c w = true ↔
      lex.covers c w = true ∨ (c = category ∧ w = word) := by
  unfold insert
  split
  · next h =>
    simp only [covers, decide_eq_true_eq]
    constructor
    · exact .inl
    · rintro (h' | ⟨rfl, rfl⟩)
      · exact h'
      · exact h
  · simp [covers]

theorem isCategory_iff {lex : Lexicon} {s : Symbol} :
    lex.isCategory s = true ↔ ∃ w, lex.covers s w = true := by
  simp only [isCategory, covers, List.any_eq_true, decide_eq_true_eq]
  constructor
  · rintro ⟨e, he, rfl⟩
    exact ⟨e.2, he⟩
  · rintro ⟨w, hw⟩
    exact ⟨(s, w), hw, rfl⟩

end Lexicon

end Parsing
