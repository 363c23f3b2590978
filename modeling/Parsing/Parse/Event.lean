/-
# What happens in a parse

Every move of a parse is recorded, and so is every entry that is offered to a
column, also one that is there already. The moves are reported, the offers are
not.

Key definitions: `ParseEvent`, `ParseEvent.report?`.
-/
import Parsing.Parse.Column
import Parsing.Report
import Parsing.Text.Quoted

namespace Parsing

/-- Something that happens in a parse. -/
inductive ParseEvent
  /-- There is nothing to parse. -/
  | emptyInput
  /-- Rules for a symbol are entered at a position. -/
  | predicted (s : Symbol) (pos : Nat)
  /-- The pool moves over a token. -/
  | scanned (token : Symbol) (pos : Nat) (count : Nat)
  /-- An item is complete. -/
  | completed (it : Item) (origin pos : Nat)
  /-- A dot moved over a node; the item is as it is after the move. -/
  | advanced (it : Item) (origin stop : Nat) (right : NodeId)
  /-- An entry was offered to the column of a position. -/
  | offered (pos : Nat) (e : Entry)
  /-- The input is accepted. -/
  | accepted (nodes : Nat)
  /-- The input is not accepted. -/
  | rejected
deriving DecidableEq

/-- The report of an event, if it is reported. -/
def ParseEvent.report? : ParseEvent → Option Report
  | emptyInput => some ⟨.step, "empty input; no parse"⟩
  | predicted s pos => some ⟨.step, "predict " ++ s ++ " at " ++ toString pos⟩
  | scanned token pos count =>
    some ⟨.step, "scan " ++ Text.quote token ++ " at " ++ toString pos ++ " for " ++
      toString count ++ " items"⟩
  | completed it origin pos =>
    some ⟨.step, "complete " ++ it.text ++ " from " ++ toString origin ++ " at " ++ toString pos⟩
  | advanced it origin stop right =>
    some ⟨.detail, "advance " ++ it.text ++ " from " ++ toString origin ++ " to " ++
      toString stop ++ " over NodeId(" ++ toString right ++ ")"⟩
  | offered _ _ => none
  | accepted nodes => some ⟨.step, "accepted; forest has " ++ toString nodes ++ " nodes"⟩
  | rejected => some ⟨.step, "rejected"⟩

end Parsing
