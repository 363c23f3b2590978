/-
# Lexemes of grammar text

A text falls into lexemes: words, operators, brackets, runs of blanks,
quotations and comments. Each lexeme is as long as its class allows, a bracket
stands alone, a comment ends before the next line feed, and a quotation that
meets a line feed or the end of the text before its closing quote is unclosed.

Which characters are brackets is left open (`Brackets`): a table of them is taken
as it is, and all that is asked of it is that it keeps clear of the other classes.

Key definitions: `Brackets`, `Lexeme`, `Lexeme.chars`, `Lexeme.first`, `lexemes`.
Key theorems: `Lexeme.chars_first`, `flatMap_chars_lexemes`.
-/
import Parsing.Text.Alphanumeric

namespace Parsing.Source

open Text

/-- Letters, digits and the underscore. -/
def isWordChar (c : Char) : Bool := isAlphanumeric c || c == '_'

/-- The two characters that open and close quotations. -/
def isQuote (c : Char) : Bool := c == '\x27' || c == '\x22'

/-- The characters that are taken for brackets. None of them is a word character, a blank, a quote or
the sign of a comment, or is part of an arrow, a bar or a line end. -/
class Brackets where
  isBracket : Char → Bool
  isWordChar_of_isBracket {c : Char} : isBracket c = true → isWordChar c = false
  isBlank_of_isBracket {c : Char} : isBracket c = true → isBlank c = false
  isQuote_of_isBracket {c : Char} : isBracket c = true → isQuote c = false
  isBracket_sign : isBracket '#' = false
  isBracket_mark : ∀ c ∈ ['-', '>', '|', ';'], isBracket c = false

export Brackets (isBracket isWordChar_of_isBracket isBlank_of_isBracket isQuote_of_isBracket
  isBracket_sign isBracket_mark)

/-- Characters of no other class: no word character, blank, bracket, quote or comment sign. -/
def isOperative [Brackets] (c : Char) : Bool :=
  !isWordChar c && !isBlank c && !isBracket c && !isQuote c && c != '#'

/-- The length of a text in bytes. -/
def byteLength : List Char → Nat
  | [] => 0
  | c :: cs => c.utf8Size + byteLength cs

@[simp] theorem byteLength_append (a b : List Char) :
    byteLength (a ++ b) = byteLength a + byteLength b := by
  induction a with
  | nil => simp [byteLength]
  | cons c a ih => simp only [List.cons_append, byteLength, ih]; omega

/-- A piece of grammar text of one class. -/
inductive Lexeme
  | word (text : List Char)
  | operator (text : List Char)
  | bracket (c : Char)
  | blank (text : List Char)
  | quoted (delim : Char) (content : List Char)
  | unclosed (delim : Char) (rest : List Char)
  | comment (text : List Char)
deriving DecidableEq

namespace Lexeme

/-- The characters that the lexeme takes up in the text. -/
def chars : Lexeme → List Char
  | word text => text
  | operator text => text
  | bracket c => [c]
  | blank text => text
  | quoted delim content => delim :: content ++ [delim]
  | unclosed delim rest => delim :: rest
  | comment text => '#' :: text

/-- The length of the lexeme in bytes. -/
def size (l : Lexeme) : Nat := byteLength l.chars

/-- The quotation opened by `delim` before `cs`, and what follows it. -/
def quotation (delim : Char) (cs : List Char) : Lexeme × List Char :=
  let inside := fun c => c != delim && c != '\n'
  match cs.dropWhile inside with
  | [] => (unclosed delim (cs.takeWhile inside), [])
  | c :: rest =>
    if c = delim then (quoted delim (cs.takeWhile inside), rest)
    else (unclosed delim (cs.takeWhile inside ++ [c]), rest)

/-- The first lexeme of the text `c :: cs`, and what follows it. -/
def first [Brackets] (c : Char) (cs : List Char) : Lexeme × List Char :=
  if c = '#' then (comment (cs.takeWhile (· != '\n')), cs.dropWhile (· != '\n'))
  else if isQuote c then quotation c cs
  else if isWordChar c then (word (c :: cs.takeWhile isWordChar), cs.dropWhile isWordChar)
  else if isBlank c then (blank (c :: cs.takeWhile isBlank), cs.dropWhile isBlank)
  else if isBracket c then (bracket c, cs)
  else (operator (c :: cs.takeWhile isOperative), cs.dropWhile isOperative)

theorem chars_quotation (delim : Char) (cs : List Char) :
    (quotation delim cs).1.chars ++ (quotation delim cs).2 = delim :: cs := by
  have h := List.takeWhile_append_dropWhile (p := fun c => c != delim && c != '\n') (l := cs)
  simp only [quotation]
  split
  · next e =>
    rw [e, List.append_nil] at h
    simp [chars, h]
  · next c rest e =>
    rw [e] at h
    split
    · next hc =>
      subst hc
      simp only [chars, List.cons_append, List.append_assoc, List.nil_append]
      rw [h]
    · simp only [chars, List.cons_append, List.append_assoc, List.nil_append]
      rw [h]

variable [Brackets]

theorem chars_first (c : Char) (cs : List Char) :
    (first c cs).1.chars ++ (first c cs).2 = c :: cs := by
  simp only [first]
  split
  · next h => simp [chars, h]
  split
  · exact chars_quotation c cs
  split
  · simp [chars]
  split
  · simp [chars]
  split
  · simp [chars]
  · simp [chars]

theorem chars_ne_nil_first (c : Char) (cs : List Char) : (first c cs).1.chars ≠ [] := by
  simp only [first, quotation]
  repeat' split
  all_goals simp [chars]

theorem length_first (c : Char) (cs : List Char) : (first c cs).2.length < (c :: cs).length := by
  have h := congrArg List.length (chars_first c cs)
  have h' := List.length_pos_iff.mpr (chars_ne_nil_first c cs)
  simp only [List.length_append] at h
  omega

end Lexeme

variable [Brackets]

/-- The lexemes of a text, in order. -/
def lexemes : List Char → List Lexeme
  | [] => []
  | c :: cs => (Lexeme.first c cs).1 :: lexemes (Lexeme.first c cs).2
termination_by cs => cs.length
decreasing_by exact Lexeme.length_first c cs

/-- Nothing of the text is lost. -/
theorem flatMap_chars_lexemes (cs : List Char) : (lexemes cs).flatMap Lexeme.chars = cs := by
  fun_induction lexemes cs with
  | case1 => rfl
  | case2 c cs ih => rw [List.flatMap_cons, ih, Lexeme.chars_first]

end Parsing.Source
