/-
# Tokens of grammar text

Grammar text is made of arrows, bars, line ends and symbols. They are located: a piece of a text is
a token with the bytes that it takes up. A run of blanks that holds a line feed ends a rule line,
and so does the end of the text; neither does when no line is open. Other blanks and comments give
no token. An unclosed quotation is reported in place and reading goes on after it.

Key definitions: `Token`, `Token.text`, `Terminal`, `Piece`, `Lexeme.token?`, `piecesFrom`,
`pieces`.
-/
import Parsing.Rule
import Parsing.Source.Lexeme

namespace Parsing.Source

/-- A token: `->`, `|`, the end of a rule line, or a symbol. -/
inductive Token
  | arrow
  | bar
  | lineEnd
  | symbol (s : Symbol)
deriving DecidableEq

/-- The token as messages name it. -/
def Token.text : Token → String
  | arrow => "`->`"
  | bar => "`|`"
  | lineEnd => "end of line"
  | symbol s => "symbol `" ++ s ++ "`"

/-- The kinds of token, as lists of what was expected name them. -/
inductive Terminal
  | arrow
  | bar
  | lineEnd
  | symbol
deriving DecidableEq

/-- The name of a kind of token: its spelling in quotes, or a word for the class. -/
def Terminal.text : Terminal → String
  | arrow => "\"->\""
  | bar => "\"|\""
  | lineEnd => "EOL"
  | symbol => "SYM"

/-- What reading a text hands out: a token with its first byte and the byte after
its last, or the place of an opening quote without a closing one. -/
inductive Piece
  | token (start : Nat) (t : Token) (stop : Nat)
  | unclosedQuote (pos : Nat)
deriving DecidableEq

/-- The token that a lexeme stands for, if it stands for one; `fresh` says that no
rule line is open. -/
def Lexeme.token? (fresh : Bool) : Lexeme → Option Token
  | word text => some (.symbol (String.ofList text))
  | operator text =>
    if text = ['-', '>'] then some .arrow
    else if text = ['|'] then some .bar
    else if text = [';'] then some .lineEnd
    else some (.symbol (String.ofList text))
  | bracket c => some (.symbol (String.ofList [c]))
  | quoted _ content => some (.symbol (String.ofList content))
  | blank text => if '\n' ∈ text ∧ fresh = false then some .lineEnd else none
  | unclosed _ _ => none
  | comment _ => none

/-- The pieces of a text that continues with the given lexemes at byte `pos`. -/
def piecesFrom (pos : Nat) (fresh : Bool) : List Lexeme → List Piece
  | [] => if fresh then [] else [.token pos .lineEnd pos]
  | .unclosed delim rest :: ls =>
    .unclosedQuote pos :: piecesFrom (pos + (Lexeme.unclosed delim rest).size) fresh ls
  | l :: ls =>
    match l.token? fresh with
    | none => piecesFrom (pos + l.size) fresh ls
    | some t => .token pos t (pos + l.size) :: piecesFrom (pos + l.size) (t = .lineEnd) ls

/-- The pieces of a text. -/
def pieces [Brackets] (s : String) : List Piece := piecesFrom 0 true (lexemes s.toList)

end Parsing.Source
