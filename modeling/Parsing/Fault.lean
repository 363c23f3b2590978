/-
# Faults of the parsing machinery

What an operation on items, forests and columns refuses to do, and the budget of
a loop running out. A parse that keeps its own bookkeeping right meets none of
these.

Key definitions: `Fault`, `Fault.message`.
-/
import Parsing.Rule

namespace Parsing

/-- A node of a forest, by its place in order of creation. -/
abbrev NodeId := Nat

/-- Why an operation is refused. -/
inductive Fault
  /-- A node would end before it starts. -/
  | reversedSpan (start stop : Nat)
  /-- A dot would stand past the end of its rule. -/
  | dotPastEnd (rule : Rule) (dot : Nat)
  /-- The right child ends elsewhere than the node. -/
  | endsElsewhere
  /-- The two children leave a gap, overlap or start elsewhere than the node. -/
  | notTiled
  /-- The empty leaf stands beside a left child. -/
  | emptyBesideLeft
  /-- The only child starts elsewhere than the node. -/
  | startsElsewhere
  /-- The forest has no such node. -/
  | noNode (id : NodeId)
  /-- There is no column for such a position yet. -/
  | noColumn (pos : Nat)
  /-- The budget of a closure ran out. -/
  | unfinished
deriving DecidableEq

/-- The fault in words. -/
def Fault.message : Fault → String
  | reversedSpan start stop =>
    "node span [" ++ toString start ++ "," ++ toString stop ++ "] is reversed"
  | dotPastEnd rule dot => "dot " ++ toString dot ++ " is past the end of `" ++ rule.text ++ "`"
  | endsElsewhere => "the right child ends elsewhere than the node"
  | notTiled => "the children do not tile the node"
  | emptyBesideLeft => "the empty leaf has a left sibling"
  | startsElsewhere => "the only child starts elsewhere than the node"
  | noNode id => "there is no node " ++ toString id
  | noColumn pos => "there is no column " ++ toString pos
  | unfinished => "the closure did not finish within its budget"

end Parsing
