/-
# States of recognition

A state is an item with the span of what it has recognised. What happens in
recognition is told in terms of states.

Key definitions: `State`, `ChartEvent`, `ChartEvent.report`.
-/
import Parsing.Item
import Parsing.Report
import Parsing.Text.Quoted

namespace Parsing

/-- An item whose recognised part starts and stops at the given positions. -/
structure State where
  item : Item
  start : Nat
  stop : Nat
deriving DecidableEq

/-- The state with its span, as in `S -> NP . VP [0, 1]`. -/
def State.text (s : State) : String :=
  s.item.text ++ " [" ++ toString s.start ++ ", " ++ toString s.stop ++ "]"

/-- Something that happens in recognition. -/
inductive ChartEvent
  /-- The rules for the symbol after a dot are entered. -/
  | predicted (s : State)
  /-- The symbol after a dot is held against the token ahead. -/
  | scanned (s : State)
  /-- A complete state moves on the states that wait for it. -/
  | completed (s : State)
  /-- A state arrives for the first time. -/
  | enqueued (s : State)
  /-- The tokens are accepted or not. -/
  | decided (accepted : Bool) (tokens : List String)
deriving DecidableEq

/-- The report of an event. -/
def ChartEvent.report : ChartEvent → Report
  | predicted s => ⟨.step, "predict(" ++ s.text ++ ")"⟩
  | scanned s => ⟨.step, "scan(" ++ s.text ++ ")"⟩
  | completed s => ⟨.step, "complete(" ++ s.text ++ ")"⟩
  | enqueued s => ⟨.detail, "    enqueue(" ++ s.text ++ ")"⟩
  | decided accepted tokens =>
    ⟨.step, (if accepted then "accepted " else "rejected ") ++ Text.quoteList tokens⟩

end Parsing
