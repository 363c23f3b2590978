/-
# Rule lines

Grammar text is made of lines by these productions, where a star stands for a row of what is before
it:

  Rules → Line*
  Line  → `lineEnd` | `symbol` `arrow` Alt (`bar` Alt)* `lineEnd`
  Alt   → `symbol`*

A line is empty, or a left-hand side, an arrow and alternatives between bars; it has one rule for
each alternative (`Line`). Text is read by a parser that is generated from the productions. What is
relied on is that this is a correct LALR(1) parser of them: it accepts the rows of tokens that they
give and no others, with the rules of their lines in order; it refuses a row at the first token after
which no row of theirs goes on; and it names what could have come there. `readLines` is such a parser.
Its places are the states of the generated one as far as they differ in what may follow, and the lists
of what is expected are those of its states. A symbol is put on a left-hand or a right-hand side only
when a token comes that may follow it there, so at the end of the tokens the state behind a symbol
lists what may follow on either side.

Key definitions: `Line`, `Line.tokens`, `Line.rules`, `Rejection`, `Place`, `Place.next?`,
`readFrom`, `readLines`.
-/
import Parsing.Source.Piece

namespace Parsing.Source

/-- A line: empty, or a left-hand side with its first alternative and the others. -/
inductive Line
  | blank
  | alternatives (lhs : Symbol) (first : List Symbol) (others : List (List Symbol))

namespace Line

/-- The tokens behind the arrow of a line. -/
def bodyTokens (first : List Symbol) (others : List (List Symbol)) : List Token :=
  first.map .symbol ++ (others.flatMap fun body => .bar :: body.map .symbol) ++ [.lineEnd]

/-- The tokens of a line, as its production has them. -/
def tokens : Line → List Token
  | blank => [.lineEnd]
  | alternatives lhs first others => .symbol lhs :: .arrow :: bodyTokens first others

/-- The rules of a line, one for each alternative. -/
def rules : Line → List Rule
  | blank => []
  | alternatives lhs first others => (first :: others).map fun body => ⟨lhs, body⟩

end Line

/-- Why a row of tokens is refused. -/
inductive Rejection
  | invalidToken (pos : Nat)
  | extraToken (start : Nat) (t : Token) (stop : Nat)
  | unexpectedToken (start : Nat) (t : Token) (stop : Nat) (expected : List String)
  | unexpectedEnd (pos : Nat) (expected : List String)
  | unclosedQuote (pos : Nat)
deriving DecidableEq

/-- How far reading has come within a line: nowhere, past the left-hand side, or
into an alternative, with the symbols of the alternative so far. -/
inductive Place
  | lineStart
  | afterHead (lhs : Symbol)
  | inBody (lhs : Symbol) (body : List Symbol)
deriving DecidableEq

namespace Place

/-- The place after one more token and the rules that the token completes, unless
no line goes on like that. -/
def next? : Place → Token → Option (Place × List Rule)
  | lineStart, .lineEnd => some (lineStart, [])
  | lineStart, .symbol s => some (afterHead s, [])
  | afterHead lhs, .arrow => some (inBody lhs [], [])
  | inBody lhs body, .symbol s => some (inBody lhs (body ++ [s]), [])
  | inBody lhs body, .bar => some (inBody lhs [], [⟨lhs, body⟩])
  | inBody lhs body, .lineEnd => some (lineStart, [⟨lhs, body⟩])
  | _, _ => none

/-- What may come instead of a token that does not fit. -/
def expected : Place → List Terminal
  | lineStart => [.lineEnd, .symbol]
  | afterHead _ => [.arrow]
  | inBody _ _ => [.bar, .lineEnd, .symbol]

/-- What may come instead of the end of the tokens. After a symbol the list does not
tell the left-hand side from the right, and holds what may follow either. -/
def expectedAtEnd : Place → List Terminal
  | lineStart => [.lineEnd, .symbol]
  | inBody _ [] => [.bar, .lineEnd, .symbol]
  | _ => [.arrow, .bar, .lineEnd, .symbol]

end Place

/-- The rules of the pieces that are left, when reading stands at `place` and the
last token ended at byte `last`. -/
def readFrom (last : Nat) : Place → List Piece → Except Rejection (List Rule)
  | .lineStart, [] => .ok []
  | place, [] => .error (.unexpectedEnd last (place.expectedAtEnd.map Terminal.text))
  | _, .unclosedQuote pos :: _ => .error (.unclosedQuote pos)
  | place, .token start t stop :: ps =>
    match place.next? t with
    | none => .error (.unexpectedToken start t stop (place.expected.map Terminal.text))
    | some (place', rules) =>
      match readFrom stop place' ps with
      | .error e => .error e
      | .ok rest => .ok (rules ++ rest)

/-- The rules of a row of pieces, one for each alternative, in order. -/
def readLines (ps : List Piece) : Except Rejection (List Rule) := readFrom 0 .lineStart ps

end Parsing.Source
