/-
# Recognition by a chart

A chart has a set of states for each position of the input. The tokens are
accepted when the last set holds a complete state of the start symbol that starts
at the first token.

Key definitions: `Chart`, `Grammar.chart`, `Chart.text`, `Chart.reports`.
-/
import Parsing.Chart.Sweep

namespace Parsing

/-- What recognition leaves: a set of states for each position, in order of arrival,
whether the tokens are accepted, and what happened, in order. -/
structure Chart where
  sets : List (List State)
  accepted : Bool
  events : List ChartEvent

namespace Chart

/-- The chart in lines, position by position. -/
def text (c : Chart) : String :=
  String.join (c.sets.zipIdx.map fun (states, i) =>
    "State set " ++ toString i ++ ":\n" ++
      String.join (states.map fun s => "    " ++ s.text ++ "\n"))

/-- The reports of recognition, in order. -/
def reports (c : Chart) : List Report := c.events.map ChartEvent.report

end Chart

/-- What a sweep that has passed all tokens amounts to. -/
def Sweep.result (sw : Sweep) (g : Grammar) (tokens : List String) : Chart :=
  let accepted := sw.here.any fun s => s.start = 0 && s.item.isComplete && s.item.lhs = g.start
  ⟨sw.closed ++ [sw.here], accepted, (.decided accepted tokens :: sw.events).reverse⟩

/-- Recognises the tokens by the grammar and the lexicon. -/
def Grammar.chart (g : Grammar) (lex : Lexicon) (tokens : List String) : Except Fault Chart := do
  let sw ← Sweep.walk ⟨g, lex, g.nullable⟩ tokens (Sweep.start g tokens)
  return sw.result g tokens

end Parsing
