/-
# Parsing into a packed forest

The tokens are in the language of the grammar when the last column holds a
complete item of the start symbol that began at the first token; its node is the
root of the forest that holds all derivations. The empty input is never accepted.

Key definitions: `Parse`, `Grammar.parse`, `Parse.accepts`, `Parse.reports`.
-/
import Parsing.Parse.Run

namespace Parsing

/-- What a parse leaves: a column for each position, the forest, its root if the input is
accepted, and what happened, in order. -/
structure Parse where
  columns : List Column
  forest : Forest
  root? : Option NodeId
  events : List ParseEvent

namespace Parse

/-- Whether the input is in the language. -/
def accepts (p : Parse) : Bool := p.root?.isSome

/-- The reports of the parse, in order. -/
def reports (p : Parse) : List Report := p.events.filterMap ParseEvent.report?

end Parse

/-- The node of a complete item of the symbol that began at the first token. -/
def Column.root? (c : Column) (s : Symbol) : Option NodeId :=
  (c.entries.find? fun e => e.origin = 0 && e.item.isComplete && e.item.lhs = s).bind (·.node?)

/-- What a run that has passed all tokens amounts to. -/
def Run.result (run : Run) (g : Grammar) : Parse :=
  let root? := run.column.root? g.start
  let verdict := if root?.isSome then .accepted run.forest.size else .rejected
  ⟨run.closed ++ [run.column], run.forest, root?, (verdict :: run.events).reverse⟩

/-- Parses the tokens. -/
def Grammar.parse (g : Grammar) (tokens : List Symbol) : Except Fault Parse :=
  if tokens.isEmpty then .ok ⟨[], Forest.empty, none, [.emptyInput]⟩
  else do
    let run ← Run.walk g tokens (Run.start g tokens)
    return run.result g

end Parsing
