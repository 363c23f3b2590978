/-
# Recognition under way

Recognition goes through the tokens and keeps a set of states for each position.
The states of the present position are worked on in order of arrival: a state
that waits for a symbol scans the token ahead for it, or brings in the rules for
it, and a complete state moves on those that wait for its left-hand side where it
starts. A category of the lexicon is scanned by its words, also when it has
rules; a symbol that is neither category nor nonterminal is scanned by itself. A
state that waits for a nullable symbol is moved on at once, since the symbol may
be complete at this position before the state arrives.

Key definitions: `Recognizer`, `Sweep`, `Sweep.visit`, `Sweep.close`, `Sweep.walk`.
-/
import Parsing.Chart.State
import Parsing.Grammar.Nullable
import Parsing.Lexicon

namespace Parsing

/-- What recognition goes by: a grammar, a lexicon, and the symbols that derive nothing. -/
structure Recognizer where
  grammar : Grammar
  lexicon : Lexicon
  nullable : List Symbol

/-- Whether `symbol`, as a category or by itself, can be read as the token. -/
def Recognizer.reads (r : Recognizer) (symbol : Symbol) (token : String) : Bool :=
  if r.lexicon.isCategory symbol then r.lexicon.covers symbol token else symbol = token

/-- The state of recognition: the token ahead, the sets of the positions passed, the set of
the present position, the set of the next one, and what has happened, latest first. -/
structure Sweep where
  ahead : Option String
  closed : List (List State)
  here : List State
  next : List State
  events : List ChartEvent

namespace Sweep

/-- The present position: the number of tokens passed. -/
def position (sw : Sweep) : Nat := sw.closed.length

/-- The set of the present position or of one before it. -/
def setAt (sw : Sweep) (pos : Nat) : Except Fault (List State) :=
  if pos = sw.position then .ok sw.here
  else match sw.closed[pos]? with
    | some states => .ok states
    | none => .error (.noColumn pos)

/-- Records an event. -/
def note (sw : Sweep) (ev : ChartEvent) : Sweep := { sw with events := ev :: sw.events }

/-- Adds a state that stops at the present position, unless it is there already. -/
def enqueueHere (sw : Sweep) (item : Item) (start : Nat) : Sweep :=
  let s : State := ⟨item, start, sw.position⟩
  if s ∈ sw.here then sw else { sw with here := sw.here ++ [s] }.note (.enqueued s)

/-- Adds a state that stops at the next position, unless it is there already. -/
def enqueueNext (sw : Sweep) (item : Item) (start : Nat) : Sweep :=
  let s : State := ⟨item, start, sw.position + 1⟩
  if s ∈ sw.next then sw else { sw with next := sw.next ++ [s] }.note (.enqueued s)

/-- Enters the rules for the symbol after the dot, and moves the dot over a nullable one. -/
def predict (sw : Sweep) (r : Recognizer) (s : State) (symbol : Symbol) : Except Fault Sweep :=
  let sw := (r.grammar.rulesFor symbol).foldl
    (fun sw rule => sw.enqueueHere (Item.atStart rule) sw.position) (sw.note (.predicted s))
  if symbol ∈ r.nullable then do
    let item ← s.item.advance
    return sw.enqueueHere item s.start
  else .ok sw

/-- Moves the dot over the token ahead if it matches the symbol after the dot. -/
def scan (sw : Sweep) (r : Recognizer) (s : State) (symbol : Symbol) : Except Fault Sweep :=
  let sw := sw.note (.scanned s)
  match sw.ahead with
  | none => .ok sw
  | some token =>
    if r.reads symbol token then do
      let item ← s.item.advance
      return sw.enqueueNext item s.start
    else .ok sw

/-- Moves on the states that wait for the left-hand side where the complete state starts. -/
def complete (sw : Sweep) (s : State) : Except Fault Sweep := do
  let sw := sw.note (.completed s)
  let states ← sw.setAt s.start
  (states.filter fun w => w.item.next? = some s.item.lhs).foldlM
    (fun sw w => do
      let item ← w.item.advance
      return sw.enqueueHere item w.start)
    sw

/-- Works on one state of the present position. -/
def visit (sw : Sweep) (r : Recognizer) (s : State) : Except Fault Sweep :=
  match s.item.next? with
  | none => sw.complete s
  | some symbol =>
    if r.lexicon.isCategory symbol then sw.scan r s symbol
    else if r.grammar.isNonterminal symbol then sw.predict r s symbol
    else sw.scan r s symbol

/-- Works on the states of the present position from the given one on, also on those that
arrive meanwhile. The budget bounds how many they may be. -/
def closeFrom (r : Recognizer) : (budget cursor : Nat) → Sweep → Except Fault Sweep
  | 0, cursor, sw => if sw.here.length ≤ cursor then .ok sw else .error .unfinished
  | budget + 1, cursor, sw =>
    match sw.here[cursor]? with
    | none => .ok sw
    | some s => do closeFrom r budget (cursor + 1) (← sw.visit r s)

/-- Works on all states of the present position. There can be no more of them than items
at each start up to here. -/
def close (sw : Sweep) (r : Recognizer) : Except Fault Sweep :=
  closeFrom r ((sw.position + 1) * r.grammar.itemCount) 0 sw

/-- Passes a token, behind which `ahead` comes next. -/
def shift (sw : Sweep) (ahead : Option String) : Sweep :=
  ⟨ahead, sw.closed ++ [sw.here], sw.next, [], sw.events⟩

/-- Goes through the tokens that are left. -/
def walk (r : Recognizer) : List String → Sweep → Except Fault Sweep
  | [], sw => sw.close r
  | _ :: rest, sw => do
    let sw ← sw.close r
    walk r rest (sw.shift rest.head?)

/-- Recognition before its first token: only the start rule has been entered. -/
def start (g : Grammar) (tokens : List String) : Sweep :=
  Sweep.enqueueHere ⟨tokens.head?, [], [], [], []⟩ (Item.atStart g.startRule) 0

end Sweep

end Parsing
