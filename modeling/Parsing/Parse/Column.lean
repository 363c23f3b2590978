/-
# Columns of entries

At each position of the input a parse keeps a column: the items that fit the text
up to there, each with the position where it began and the node for what it has
recognised. Items that wait for exactly the token ahead are kept apart in the
pool, from where they move on over that token.

Key definitions: `Entry`, `Column`, `Column.offer`, `Column.setNode`.
-/
import Parsing.Forest

namespace Parsing

/-- An item, the position where its recognition began, and the node for what stands
before its dot. Items with their dot at the start have no node, but those of rules without a
right-hand side get one when they are worked on. -/
structure Entry where
  item : Item
  origin : Nat
  node? : Option NodeId
deriving DecidableEq

namespace Entry

/-- Whether two entries have the same item from the same origin; such entries differ in
their nodes at most. -/
def sameKey (a b : Entry) : Bool := a.item = b.item && a.origin = b.origin

/-- Whether the entry waits for exactly the token ahead. -/
def scans (e : Entry) (ahead : Option Symbol) : Bool := ahead.any fun t => e.item.next? = some t

/-- The entries with one more at the end, unless there is one of its key already. -/
def insertInto (e : Entry) (es : List Entry) : List Entry :=
  if es.any e.sameKey then es else es ++ [e]

end Entry

/-- The entries of one position, in order of arrival: those that are worked on there, and
the pool of those that move on over the token ahead. -/
structure Column where
  entries : List Entry
  pool : List Entry
deriving DecidableEq

namespace Column

/-- The column without entries. -/
def empty : Column := ⟨[], []⟩

/-- Takes in an entry where it belongs. -/
def offer (c : Column) (ahead : Option Symbol) (e : Entry) : Column :=
  if e.scans ahead then ⟨c.entries, e.insertInto c.pool⟩ else ⟨e.insertInto c.entries, c.pool⟩

/-- The column with the node for the entry at the cursor, where an entry has been read before. -/
def setNode (c : Column) (cursor : Nat) (id : NodeId) : Column :=
  { c with entries := c.entries.modify cursor fun e => { e with node? := some id } }

/-- The entries that wait for the symbol `s`. -/
def waiting (c : Column) (s : Symbol) : List Entry :=
  c.entries.filter fun e => e.item.next? = some s

end Column

end Parsing
