/-
# A parse under way

A parse goes through the input token by token. At each position it closes the
column: an entry that waits for a symbol brings in the rules for that symbol, and
a complete entry moves on the entries that wait for its left-hand side where it
began. Then the pool moves over the token ahead and becomes the start of the next
column. Every move of a dot makes the node for what the item has recognised by
then, and a family of it.

A left-hand side that derives nothing is complete where it began, perhaps before
an entry that waits for it arrives. So each position keeps a table of the nodes
of symbols derived as nothing there, and an entry that waits for one of them moves
on at once.

Key definitions: `Forest.nodeFor`, `Forest.emptyNode`, `Run`, `Run.offer`, `Run.advance`,
`Run.predict`, `Run.complete`, `Run.visit`, `Run.close`, `Run.shift`, `Run.walk`.
-/
import Parsing.Grammar
import Parsing.Parse.Event

namespace Parsing

namespace Forest

/-- The node for an item whose dot has just moved over `right`, where `left?` is the node
for what the item had recognised before. While `right` is all that the item has
recognised, it stands for the item itself. -/
def nodeFor (f : Forest) (it : Item) (start stop : Nat) (left? : Option NodeId) (right : NodeId) :
    Except Fault (NodeId × Forest) :=
  if it.isComplete = false ∧ it.dot = 1 then .ok (right, f)
  else do
    let label := if it.isComplete then Label.symbol it.lhs else Label.item it
    let (id, f) ← f.ensure ⟨start, stop, label⟩
    let (_, f) ← f.addFamily id ⟨left?, right⟩
    return (id, f)

/-- The node for a symbol that derives nothing at `pos`, over the empty leaf. -/
def emptyNode (f : Forest) (s : Symbol) (pos : Nat) : Except Fault (NodeId × Forest) := do
  let (id, f) ← f.ensure ⟨pos, pos, .symbol s⟩
  let (leaf, f) ← f.ensure ⟨pos, pos, .epsilon⟩
  let (_, f) ← f.addFamily id ⟨none, leaf⟩
  return (id, f)

end Forest

/-- The state of a parse: the token ahead, the columns of the positions passed, the column
of the present position, the nodes of symbols derived as nothing there, the forest, and
what has happened, latest first. -/
structure Run where
  ahead : Option Symbol
  closed : List Column
  column : Column
  empties : List (Symbol × NodeId)
  forest : Forest
  events : List ParseEvent

namespace Run

/-- The present position: the number of tokens passed. -/
def position (run : Run) : Nat := run.closed.length

/-- The column of the present position or of one before it. -/
def columnAt (run : Run) (pos : Nat) : Except Fault Column :=
  if pos = run.position then .ok run.column
  else match run.closed[pos]? with
    | some c => .ok c
    | none => .error (.noColumn pos)

/-- Records an event. -/
def note (run : Run) (ev : ParseEvent) : Run := { run with events := ev :: run.events }

/-- Offers an entry to the column of the present position. -/
def offer (run : Run) (e : Entry) : Run :=
  { run with column := run.column.offer run.ahead e }.note (.offered run.position e)

/-- Moves the dot of an entry over a node that ends at the present position. -/
def advance (run : Run) (e : Entry) (right : NodeId) : Except Fault Run := do
  let it ← e.item.advance
  let (id, forest) ← run.forest.nodeFor it e.origin run.position e.node? right
  let run := { run with forest }.note (.advanced it e.origin run.position right)
  return run.offer ⟨it, e.origin, some id⟩

/-- Moves entries over one node, one after the other. -/
def advanceAll (run : Run) (es : List Entry) (right : NodeId) : Except Fault Run :=
  es.foldlM (fun run e => run.advance e right) run

/-- Enters the rules for a symbol at the present position. -/
def predict (run : Run) (g : Grammar) (s : Symbol) : Run :=
  (g.rulesFor s).foldl (fun run r => run.offer ⟨Item.atStart r, run.position, none⟩)
    (run.note (.predicted s run.position))

/-- The node for all that the complete entry at the cursor has recognised. An entry that has
recognised nothing gets its node now. -/
def completedNode (run : Run) (cursor : Nat) (e : Entry) : Except Fault (NodeId × Run) :=
  match e.node? with
  | some id => .ok (id, run)
  | none => do
    let (id, forest) ← run.forest.emptyNode e.item.lhs run.position
    return (id, { run with forest, column := run.column.setNode cursor id })

/-- Moves on the entries that wait for the left-hand side of the complete entry at the cursor
where it began. -/
def complete (run : Run) (cursor : Nat) (e : Entry) : Except Fault Run := do
  let (id, run) ← run.completedNode cursor e
  let run := if e.origin = run.position then
      { run with empties := (e.item.lhs, id) :: run.empties }
    else run
  let run := run.note (.completed e.item e.origin run.position)
  let column ← run.columnAt e.origin
  run.advanceAll (column.waiting e.item.lhs) id

/-- Works on the entry at the cursor of the present column. -/
def visit (run : Run) (g : Grammar) (cursor : Nat) (e : Entry) : Except Fault Run :=
  match e.item.next? with
  | none => run.complete cursor e
  | some s =>
    let run := run.predict g s
    match run.empties.lookup s with
    | some id => run.advance e id
    | none => .ok run

/-- Works on the entries of the present column from the given one on, also on those that
arrive meanwhile. The budget bounds how many they may be. -/
def closeFrom (g : Grammar) : (budget cursor : Nat) → Run → Except Fault Run
  | 0, cursor, run => if run.column.entries.length ≤ cursor then .ok run else .error .unfinished
  | budget + 1, cursor, run =>
    match run.column.entries[cursor]? with
    | none => .ok run
    | some e => do closeFrom g budget (cursor + 1) (← run.visit g cursor e)

/-- Works on all entries of the present column. There can be no more of them than items
at each origin up to here. -/
def close (run : Run) (g : Grammar) : Except Fault Run :=
  closeFrom g ((run.position + 1) * g.itemCount) 0 run

/-- Passes a token, behind which `ahead` comes next: the pool moves over the token's leaf
into the next column. -/
def shift (run : Run) (token : Symbol) (ahead : Option Symbol) : Except Fault Run :=
  let pos := run.position
  let next : Run :=
    { run with ahead, closed := run.closed ++ [run.column], column := Column.empty, empties := [] }
  if run.column.pool.isEmpty then .ok next
  else do
    let next := next.note (.scanned token pos run.column.pool.length)
    let (leaf, forest) ← next.forest.ensure ⟨pos, pos + 1, .symbol token⟩
    { next with forest }.advanceAll run.column.pool leaf

/-- Goes through the tokens that are left. -/
def walk (g : Grammar) : List Symbol → Run → Except Fault Run
  | [], run => run.close g
  | token :: rest, run => do
    let run ← run.close g
    let run ← run.shift token rest.head?
    walk g rest run

/-- The parse before its first token: only the start rule has been entered. -/
def start (g : Grammar) (tokens : List Symbol) : Run :=
  Run.offer ⟨tokens.head?, [], Column.empty, [], Forest.empty, []⟩
    ⟨Item.atStart g.startRule, 0, none⟩

end Run

end Parsing
