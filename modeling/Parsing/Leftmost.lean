/-
# Leftmost derivations by search

A configuration is a position in the input and the symbols predicted from there
on. If the first of them has rules, a step puts the right-hand side of one of the
rules in its place; if not, a step matches it with the next token. A search from
the start symbol to the configuration with all tokens matched and nothing
predicted finds a leftmost derivation: the rules of its steps.

A symbol that is not nullable derives at least one token, so a step by a rule is
left out when more such symbols are predicted than tokens remain.

Key definitions: `Config`, `Config.graph`, `LeftmostResult`, `Grammar.leftmost`.
-/
import Parsing.Grammar.Nullable
import Parsing.Search

namespace Parsing

/-- How many tokens are matched, and the symbols to be found in the rest. -/
structure Config where
  position : Nat
  predictions : List Symbol
deriving DecidableEq

namespace Config

/-- Whether enough tokens remain for the predictions that derive at least one. -/
def canFinish (nullable : List Symbol) (tokens : List Symbol) (c : Config) : Bool :=
  (c.predictions.filter fun s => s ∉ nullable).length ≤ tokens.length - c.position

/-- The steps from a configuration: those by a rule bear the rule. -/
def steps (g : Grammar) (nullable : List Symbol) (tokens : List Symbol) (c : Config) :
    List (Option Rule × Config) :=
  match c.predictions with
  | [] => []
  | s :: rest =>
    if g.isNonterminal s then
      ((g.rulesFor s).map fun r => (some r, ⟨c.position, r.rhs ++ rest⟩)).filter
        fun e => e.2.canFinish nullable tokens
    else if tokens[c.position]? = some s then [(none, ⟨c.position + 1, rest⟩)]
    else []

/-- The graph of configurations for the given tokens. -/
def graph (g : Grammar) (tokens : List Symbol) : Graph Config (Option Rule) :=
  let nullable := g.nullable
  { steps := steps g nullable tokens
    isGoal := fun c => c.predictions.isEmpty && c.position == tokens.length }

end Config

/-- How the search for a leftmost derivation ends: with the rules in order, without a
derivation, or not within the looks it was given. -/
inductive LeftmostResult
  | derived (rules : List Rule)
  | underivable
  | unfinished
deriving DecidableEq

/-- Searches for a leftmost derivation of the tokens, looking at no more than the given
number of configurations. -/
def Grammar.leftmost (g : Grammar) (tokens : List Symbol) (strategy : Strategy) (looks : Nat) :
    LeftmostResult :=
  match Search.first (Config.graph g tokens) strategy looks (Search.start ⟨0, [g.start]⟩) with
  | .found path _ => .derived (path.labels.reverse.filterMap id)
  | .absent _ => .underivable
  | .unfinished => .unfinished

end Parsing
