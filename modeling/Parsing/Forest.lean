/-
# Packed parse forests

A forest holds every derivation of a text at once. A node is known by its label
and the span that it covers, so equal parts of different derivations are one
node, and a node's families are the ways to derive it: a right child, and before
it a left child that covers the rest of the span, if there is one. More than one
family makes the node ambiguous. Children are named by their place in the
forest, which may therefore hold cycles.

Key definitions: `Label`, `NodeKey`, `Family`, `Node`, `Forest`, `Forest.find?`,
`Forest.ensure`, `Forest.addFamily`.
-/
import Parsing.Item

namespace Parsing

/-- What a node stands for: a symbol's derivation, the part of a rule before a dot,
or the empty text. -/
inductive Label
  | symbol (s : Symbol)
  | item (it : Item)
  | epsilon
deriving DecidableEq

/-- The label as vertices show it. -/
def Label.text : Label → String
  | symbol s => s
  | item it => it.text
  | epsilon => "eps"

/-- What a node is known by: its label, and the positions where it starts and stops. -/
structure NodeKey where
  start : Nat
  stop : Nat
  label : Label
deriving DecidableEq

/-- One way to derive a node. -/
structure Family where
  left? : Option NodeId
  right : NodeId
deriving DecidableEq

/-- A node and its families, in order of arrival. -/
structure Node where
  key : NodeKey
  families : List Family
deriving DecidableEq

namespace Node

/-- Whether there is more than one way to derive the node. -/
def isAmbiguous (n : Node) : Bool := decide (1 < n.families.length)

/-- Whether nothing derives the node further. -/
def isLeaf (n : Node) : Bool := n.families.isEmpty

end Node

/-- Nodes in order of creation. -/
structure Forest where
  nodes : List Node
deriving DecidableEq

/-- Whether the children of a family may stand under a node: the right child ends
where the node ends; a left child starts where the node starts, ends where the right
child starts, and has something beside it; an only child starts where the node
starts. -/
def Family.check (node : NodeKey) (left? : Option NodeKey) (right : NodeKey) : Except Fault Unit :=
  if right.stop ≠ node.stop then .error .endsElsewhere
  else match left? with
    | some left =>
      if left.start ≠ node.start ∨ left.stop ≠ right.start then .error .notTiled
      else if right.label = .epsilon then .error .emptyBesideLeft
      else .ok ()
    | none => if right.start ≠ node.start then .error .startsElsewhere else .ok ()

namespace Forest

/-- The forest without nodes. -/
def empty : Forest := ⟨[]⟩

/-- The number of nodes. -/
def size (f : Forest) : Nat := f.nodes.length

/-- The node of the given name. -/
def node (f : Forest) (id : NodeId) : Except Fault Node :=
  match f.nodes[id]? with
  | some n => .ok n
  | none => .error (.noNode id)

/-- The node known by `key`, if there is one. -/
def find? (f : Forest) (key : NodeKey) : Option NodeId := f.nodes.findIdx? fun n => n.key = key

/-- The node known by `key`, created without families if there is none. -/
def ensure (f : Forest) (key : NodeKey) : Except Fault (NodeId × Forest) :=
  if key.start ≤ key.stop then
    match f.find? key with
    | some id => .ok (id, f)
    | none => .ok (f.nodes.length, ⟨f.nodes ++ [⟨key, []⟩]⟩)
  else .error (.reversedSpan key.start key.stop)

/-- The key of a child that may be absent. -/
def childKey? (f : Forest) : Option NodeId → Except Fault (Option NodeKey)
  | none => .ok none
  | some id => (f.node id).map fun n => some n.key

/-- Gives a node one more family, unless it has it already; also says whether the
node changed. The family has to tile the node's span. -/
def addFamily (f : Forest) (id : NodeId) (fam : Family) : Except Fault (Bool × Forest) := do
  let node ← f.node id
  let right ← f.node fam.right
  let left? ← f.childKey? fam.left?
  Family.check node.key left? right.key
  if fam ∈ node.families then
    return (false, f)
  else
    return (true, ⟨f.nodes.modify id fun n => ⟨n.key, n.families ++ [fam]⟩⟩)

end Forest

end Parsing
