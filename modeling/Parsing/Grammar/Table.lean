/-
# Rules kept in a table

A table keeps the rules of a grammar in a map, from each left-hand side to its rules, and beside the
map the left-hand sides in order of first definition, as a map has no order of its own. It
changes in place, one thing after the other: a new left-hand side is put behind the others first,
then it gets its place in the map, without rules, and last the rule itself.

Edits may be made to a table, or to a grammar that keeps its rules in groups.

Key definitions: `Grammar.Edit`, `Grammar.edit`, `RuleTable`, `RuleTable.add`, `RuleTable.extend`,
`RuleTable.allRules?`, `RuleTable.edit`, `RuleTable.ofRules`.
-/
import Mathlib.Data.Finmap
import Parsing.Grammar

namespace Parsing

namespace Grammar

/-- An edit: one more rule, more rules put in one after the other, or another start symbol. -/
inductive Edit
  | add (r : Rule)
  | extend (rs : List Rule)
  | withStart (start : Symbol)
deriving DecidableEq

namespace Edit

/-- The rules that the edit puts in. -/
def rules : Edit → List Rule
  | add r => [r]
  | extend rs => rs
  | withStart _ => []

/-- The start symbol that the edit sets, if it sets one. -/
def start? : Edit → Option Symbol
  | withStart start => some start
  | _ => none

end Edit

/-- The grammar after an edit. -/
def edit (g : Grammar) : Edit → Grammar
  | .add r => (g.add r).2
  | .extend rs => g.extend rs
  | .withStart start => g.withStart start

end Grammar

/-- A start symbol with the rule above it, the rules of each left-hand side, and the left-hand sides
in order of first definition. -/
structure RuleTable where
  start : Symbol
  startRule : Rule
  rules : Finmap fun _ : Symbol => List Rule
  order : List Symbol

namespace RuleTable

/-- Operations on a table. -/
abbrev Op := StateM RuleTable

/-- What an operation comes to, and the table afterwards. -/
def run {α : Type} (op : Op α) (t : RuleTable) : α × RuleTable := (StateT.run op t).run

/-- The table without rules. -/
def empty (start : Symbol) : RuleTable := ⟨start, ⟨Grammar.startMark, [start]⟩, ∅, []⟩

/-- Sets another start symbol. -/
def restart (start : Symbol) : Op Unit := do
  modify fun t => { t with start := start }
  modify fun t => { t with startRule := ⟨Grammar.startMark, [t.start]⟩ }

/-- Puts in a rule, unless it is there already; says whether it was put in. -/
def add (r : Rule) : Op Bool := do
  if r.lhs ∉ (← get).rules then
    modify fun t => { t with order := t.order ++ [r.lhs] }
  let known := ((← get).rules.lookup r.lhs).getD []
  modify fun t => { t with rules := t.rules.insert r.lhs known }
  if r ∈ known then
    return false
  else
    modify fun t => { t with rules := t.rules.insert r.lhs (known ++ [r]) }
    return true

/-- Puts in rules, one after the other. -/
def extend (rs : List Rule) : Op Unit := rs.forM fun r => discard (add r)

/-- The rules with `s` on the left; none when the map has no place for it. -/
def rulesFor (t : RuleTable) (s : Symbol) : List Rule := (t.rules.lookup s).getD []

/-- Whether the map has a place for `s`. -/
def isNonterminal (t : RuleTable) (s : Symbol) : Bool := decide (s ∈ t.rules)

/-- All rules, in order, if the map has a place for each left-hand side. -/
def allRules? (t : RuleTable) : Option (List Rule) :=
  (t.order.mapM fun lhs => t.rules.lookup lhs).map List.flatten

/-- The table of the given rules. -/
def ofRules (start : Symbol) (rs : List Rule) : RuleTable := (run (extend rs) (empty start)).2

/-- Makes an edit. -/
def edit : Grammar.Edit → Op Unit
  | .add r => discard (add r)
  | .extend rs => extend rs
  | .withStart start => restart start

/-- The table after an edit. -/
def next (t : RuleTable) (e : Grammar.Edit) : RuleTable := (run (edit e) t).2

end RuleTable

end Parsing
