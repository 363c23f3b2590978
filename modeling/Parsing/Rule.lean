/-
# Rules of a context-free grammar

A rule puts a sequence of symbols in the place of its left-hand side. Nothing
marks a symbol as terminal or nonterminal: a symbol is a nonterminal of a grammar
when the grammar has rules for it.

Key definitions: `Symbol`, `Rule`, `Rule.text`.
-/
namespace Parsing

/-- Symbols are told apart by their text. -/
abbrev Symbol := String

/-- The symbols in a row, a space between any two. -/
def Symbol.row (xs : List Symbol) : String := " ".intercalate xs

/-- A rule `lhs -> rhs`. -/
structure Rule where
  lhs : Symbol
  rhs : List Symbol
deriving DecidableEq

namespace Rule

/-- Whether the rule puts nothing in the place of its left-hand side. -/
def isEpsilon (r : Rule) : Bool := r.rhs.isEmpty

/-- The rule on one line, as in `S -> NP VP`. -/
def text (r : Rule) : String := r.lhs ++ " -> " ++ Symbol.row r.rhs

end Rule

end Parsing
