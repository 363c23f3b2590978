/-
# Loading grammars and lexicons from text

A lexicon has the form of a grammar whose alternatives are single words. What is
wrong with a text is told with the byte where it is.

Key definitions: `LoadError`, `LoadError.message`, `LoadError.ofRejection`,
`Source.ofBytes`, `Source.rules`, `Grammar.ofText`, `Lexicon.ofText`.
-/
import Parsing.Grammar
import Parsing.Lexicon
import Parsing.Source.Brackets
import Parsing.Source.Lines

namespace Parsing

/-! ### What can be wrong -/

/-- What stood where something else was expected. -/
inductive Found
  | token (t : Source.Token)
  | endOfInput
  | invalidToken
deriving DecidableEq

/-- The words for what was found. -/
def Found.text : Found → String
  | token t => t.text
  | endOfInput => "end of input"
  | invalidToken => "invalid token"

/-- Why a grammar, a lexicon or a rule could not be loaded. Positions are in bytes. -/
inductive LoadError
  | unreadable
  | unclosedQuote (pos : Nat)
  | unexpected (pos : Nat) (found : Found) (expected : List String)
  | ruleLine (line : String)
  | lexiconEntry (category : Symbol) (size : Nat)
deriving DecidableEq

namespace LoadError

/-- The error in words. -/
def message : LoadError → String
  | unreadable => "the text cannot be read"
  | unclosedQuote pos => "unterminated quotation starting at byte " ++ toString pos
  | unexpected pos found expected =>
    "unexpected " ++ found.text ++ " at byte " ++ toString pos ++ "; expected one of " ++
      ", ".intercalate expected
  | ruleLine line => "malformed rule line `" ++ line ++ "`; expected `lhs -> symbols...`"
  | lexiconEntry category size =>
    "lexicon entry for `" ++ category ++ "` has " ++ toString size ++
      " words in one alternative; expected exactly one"

/-- The error that a refusal of rule lines amounts to. -/
def ofRejection : Source.Rejection → LoadError
  | .invalidToken pos => unexpected pos .invalidToken []
  | .extraToken start t _ => unexpected start (.token t) []
  | .unexpectedToken start t _ expected => unexpected start (.token t) expected
  | .unexpectedEnd pos expected => unexpected pos .endOfInput expected
  | .unclosedQuote pos => unclosedQuote pos

end LoadError

/-! ### Loading -/

variable [Source.Brackets]

/-- The text that the bytes of a file encode in UTF-8; there may be no such file. -/
def Source.ofBytes (bytes : Option ByteArray) : Except LoadError String :=
  match bytes.bind String.fromUTF8? with
  | some text => .ok text
  | none => .error .unreadable

/-- The rules of a text, in the order written. -/
def Source.rules (text : String) : Except LoadError (List Rule) :=
  match Source.readLines (Source.pieces text) with
  | .ok rs => .ok rs
  | .error e => .error (.ofRejection e)

/-- The grammar of a text, with the default start symbol. -/
def Grammar.ofText (text : String) : Except LoadError Grammar :=
  (Source.rules text).map (Grammar.ofRules Grammar.defaultStart)

/-- Puts the words of rules `category -> word` into a lexicon. -/
def Lexicon.insertRules (lex : Lexicon) : List Rule → Except LoadError Lexicon
  | [] => .ok lex
  | ⟨category, [word]⟩ :: rs => (lex.insert category word).insertRules rs
  | ⟨category, rhs⟩ :: _ => .error (.lexiconEntry category rhs.length)

/-- The lexicon of a text. -/
def Lexicon.ofText (text : String) : Except LoadError Lexicon :=
  match Source.rules text with
  | .ok rs => Lexicon.empty.insertRules rs
  | .error e => .error e

end Parsing
