/-
# Forests kept in a store

A store keeps the nodes of a forest together with an index, which gives the name of a node for its
key, so that no node has to be looked for among all the others. It changes in place: creating a
node puts it behind the others and then enters its key into the index. An operation checks what it
is given before it changes anything, for when it is refused, the store goes on as it stands then.

Calls may be made to a store, or to a forest without an index.

Key definitions: `Forest.Call`, `Forest.answer`, `Forest.after`, `Store`, `Store.find?`,
`Store.ensure`, `Store.addFamily`, `Store.call`, `History`, `History.ofCalls`.
-/
import Parsing.Forest

namespace Parsing

namespace Forest

/-- A call: for the node known by a key, which is created if there is none; to find it, if there is
one; or to add a family to a node. -/
inductive Call
  | ensure (key : NodeKey)
  | find (key : NodeKey)
  | addFamily (id : NodeId) (fam : Family)
deriving DecidableEq

/-- What a call answers: the node; the node found, if there is one; or whether the node had its
families changed. -/
inductive Answer
  | node (id : NodeId)
  | found (id? : Option NodeId)
  | changed (changed : Bool)
deriving DecidableEq

/-- What a forest answers to a call, and the forest afterwards. -/
def answer (f : Forest) : Call → Except Fault (Answer × Forest)
  | .ensure key => (f.ensure key).map fun (id, f') => (.node id, f')
  | .find key => .ok (.found (f.find? key), f)
  | .addFamily id fam => (f.addFamily id fam).map fun (b, f') => (.changed b, f')

/-- The forest after a call. One that is refused changes nothing. -/
def next (f : Forest) (c : Call) : Forest :=
  match f.answer c with
  | .ok (_, f') => f'
  | .error _ => f

/-- The forest after the calls, from the forest without nodes on. -/
def after (calls : List Call) : Forest := calls.foldl next empty

end Forest

/-- The nodes of a forest, in order of creation, and their names by their keys, latest first. -/
structure Store where
  nodes : List Node
  index : List (NodeKey × NodeId)

namespace Store

/-- The store without nodes. -/
def empty : Store := ⟨[], []⟩

/-- The forest that is kept. -/
def forest (s : Store) : Forest := ⟨s.nodes⟩

/-- Operations on a store. Where one is refused, what was done before stays done. -/
abbrev Op := ExceptT Fault (StateM Store)

/-- What an operation comes to, and the store afterwards. -/
def run {α : Type} (op : Op α) (s : Store) : Except Fault α × Store := op.run.run s

/-- The node of the given name. -/
def node (id : NodeId) : Op Node := do
  match (← get).nodes[id]? with
  | some n => return n
  | none => throw (.noNode id)

/-- The node known by the key, if there is one. -/
def find? (key : NodeKey) : Op (Option NodeId) := return (← get).index.lookup key

/-- The node known by the key, created without families if there is none. -/
def ensure (key : NodeKey) : Op NodeId := do
  if key.stop < key.start then throw (.reversedSpan key.start key.stop)
  match (← get).index.lookup key with
  | some id => return id
  | none =>
    let id := (← get).nodes.length
    modify fun s => { s with nodes := s.nodes ++ [⟨key, []⟩] }
    modify fun s => { s with index := (key, id) :: s.index }
    return id

/-- The key of a child that may be absent. -/
def childKey? : Option NodeId → Op (Option NodeKey)
  | none => return none
  | some id => return some (← node id).key

/-- Refuses a family that does not tile the span of the node. -/
def checkFamily (id : NodeId) (fam : Family) : Op Unit := do
  let n ← node id
  let right ← node fam.right
  let left? ← childKey? fam.left?
  match Family.check n.key left? right.key with
  | .ok () => return ()
  | .error fault => throw fault

/-- Gives a node one more family, unless it has it already; says whether the node changed. -/
def addFamily (id : NodeId) (fam : Family) : Op Bool := do
  checkFamily id fam
  let n ← node id
  if fam ∈ n.families then
    return false
  else
    modify fun s => { s with nodes := s.nodes.modify id fun n => ⟨n.key, n.families ++ [fam]⟩ }
    return true

/-- What a store answers to a call. -/
def call : Forest.Call → Op Forest.Answer
  | .ensure key => return .node (← ensure key)
  | .find key => return .found (← find? key)
  | .addFamily id fam => return .changed (← addFamily id fam)

end Store

/-- The calls made to a store with what they came to, in order, and the store afterwards. -/
structure History where
  log : List (Forest.Call × Except Fault Forest.Answer)
  store : Store

namespace History

/-- The history with one more call. -/
def next (h : History) (c : Forest.Call) : History :=
  let (answer, store) := Store.run (Store.call c) h.store
  ⟨h.log ++ [(c, answer)], store⟩

/-- The history of the calls, made to the store without nodes. -/
def ofCalls (calls : List Forest.Call) : History := calls.foldl next ⟨[], Store.empty⟩

/-- The key of the node that a call was for, if the node was answered. -/
def key? : Forest.Call × Except Fault Forest.Answer → Option NodeKey
  | (.ensure key, .ok _) => some key
  | _ => none

/-- The family that a call was to add to the node of the name, if the call was answered. -/
def family? (id : NodeId) : Forest.Call × Except Fault Forest.Answer → Option Family
  | (.addFamily node fam, .ok _) => if node = id then some fam else none
  | _ => none

/-- The keys of the nodes that calls have answered, in order of the first such call. -/
def keys (h : History) : List NodeKey := (h.log.filterMap key?).eraseDups

/-- The families that calls have given to the node of the name, in order of the first such call. -/
def families (h : History) (id : NodeId) : List Family := (h.log.filterMap (family? id)).eraseDups

end History

end Parsing
