/-
# Derivations and their dot text

A derivation is given by its edges from parent to child. A vertex shows the text
of a node's label and the node's span. Edges have an order: by where the child
starts, wider children first, then by where the parent starts, wider parents
first, then by the two labels.

The dot form of a derivation is a named directed graph with one line for each
edge, in the order of edges.

Key definitions: `Vertex`, `Edge`, `Edge.cmp`, `Edge.dotLine`, `Derivation`,
`Derivation.sorted`, `Derivation.leaves`, `Derivation.toDot`.
-/
import Parsing.Rule

namespace Parsing

/-- A node as a derivation shows it. -/
structure Vertex where
  label : String
  start : Nat
  stop : Nat
deriving DecidableEq

namespace Vertex

/-- How many positions the vertex covers. -/
def width (v : Vertex) : Nat := v.stop - v.start

/-- The vertex with its span, as in `S [0,3]`. -/
def text (v : Vertex) : String :=
  v.label ++ " [" ++ toString v.start ++ "," ++ toString v.stop ++ "]"

end Vertex

/-- An edge from parent to child. -/
structure Edge where
  parent : Vertex
  child : Vertex
deriving DecidableEq

namespace Edge

/-- The order of edges. -/
def cmp (a b : Edge) : Ordering :=
  (compare a.child.start b.child.start)
    |>.then (compare b.child.width a.child.width)
    |>.then (compare a.parent.start b.parent.start)
    |>.then (compare b.parent.width a.parent.width)
    |>.then (compare a.parent.label b.parent.label)
    |>.then (compare a.child.label b.child.label)

/-- Whether `a` may stand before `b`. -/
def le (a b : Edge) : Bool := (a.cmp b).isLE

/-- The edge between the quoted texts of its ends. -/
def dotLine (e : Edge) : String :=
  "\"" ++ e.parent.text ++ "\" -> \"" ++ e.child.text ++ "\";"

end Edge

/-- A derivation: its edges in the order in which they were found. -/
structure Derivation where
  edges : List Edge
deriving DecidableEq

namespace Derivation

/-- The derivation without edges. -/
def empty : Derivation := ⟨[]⟩

/-- The edges in order. -/
def sorted (d : Derivation) : List Edge := d.edges.mergeSort Edge.le

/-- The children that are no parents, in the order of their edges. -/
def leaves (d : Derivation) : List Vertex :=
  (d.sorted.map (·.child)).filter fun v => decide (v ∉ d.edges.map (·.parent))

/-- The graph of the derivation, without a line feed after its last line. -/
def toDot (d : Derivation) (name : String) : String :=
  "\n".intercalate
    (("digraph " ++ name ++ " \x7b") :: (d.sorted.map fun e => "\t" ++ e.dotLine) ++ ["\x7d"])

end Derivation

end Parsing
