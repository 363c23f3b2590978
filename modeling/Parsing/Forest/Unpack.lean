/-
# Unpacking a forest

A derivation is taken out of a forest by applying families from a root on. A
partial tree knows which families it has applied and which nodes wait to be
expanded; it applies no family twice, so a shared or cyclic node is expanded once
by each of its families at most. At a node with several families left the first
is applied, and each of the others starts a partial tree of its own, to be
finished later, the last one first.

Key definitions: `Choice`, `Forest.choicesAt`, `PartialTree`, `Forest.expand`,
`Forest.finish`, `Forest.next?`, `Forest.take`, `Forest.trees`, `Forest.derivation`.
Key theorems: `Forest.weight_expand`.
-/
import Parsing.Derivation.Dot
import Parsing.Forest

namespace Parsing

/-- A family of a forest: its node, and its place among the families of the node. -/
structure Choice where
  node : NodeId
  index : Nat
  family : Family
deriving DecidableEq

/-- The edges that a choice contributes, from the node to its children. -/
def Choice.edges (c : Choice) : List (NodeId × NodeId) :=
  (c.family.left?.toList ++ [c.family.right]).map fun child => (c.node, child)

/-- A derivation under way: the choices made, latest first, and the nodes to expand, next
one first. -/
structure PartialTree where
  applied : List Choice
  pending : List NodeId
deriving DecidableEq

namespace PartialTree

/-- The partial tree of a root alone. -/
def ofRoot (root : NodeId) : PartialTree := ⟨[], [root]⟩

/-- The edges, in the order in which they were found. -/
def edges (t : PartialTree) : List (NodeId × NodeId) := t.applied.reverse.flatMap Choice.edges

/-- The partial tree with one more choice made; its children are to be expanded, the
right one first. -/
def apply (t : PartialTree) (c : Choice) : PartialTree :=
  ⟨c :: t.applied, c.family.right :: (c.family.left?.toList ++ t.pending)⟩

end PartialTree

namespace Forest

/-- The families of a node, in order. An id that is no node has none; to look it up would fail, but
what unpacking meets on its way from a node are nodes. -/
def choicesAt (f : Forest) (id : NodeId) : List Choice :=
  match f.nodes[id]? with
  | some n => n.families.zipIdx.map fun (fam, i) => ⟨id, i, fam⟩
  | none => []

/-- The families of all nodes. -/
def choices (f : Forest) : List Choice := (List.range f.nodes.length).flatMap f.choicesAt

theorem mem_choices_of_mem_choicesAt {f : Forest} {id : NodeId} {c : Choice}
    (h : c ∈ f.choicesAt id) : c ∈ f.choices := by
  refine List.mem_flatMap.mpr ⟨id, List.mem_range.mpr ?_, h⟩
  unfold choicesAt at h
  split at h
  · next n hn => exact (List.getElem?_eq_some_iff.mp hn).1
  · simp at h

/-- One step of a partial tree: takes the next node and applies the first of its families
not applied yet. Also gives the partial trees that apply one of the others instead.
`none` when no node waits. -/
def expand (f : Forest) (t : PartialTree) : Option (PartialTree × List PartialTree) :=
  match t.pending with
  | [] => none
  | id :: rest =>
    match (f.choicesAt id).filter fun c => c ∉ t.applied with
    | [] => some (⟨t.applied, rest⟩, [])
    | c :: others =>
      some ((⟨t.applied, rest⟩ : PartialTree).apply c,
        others.map (⟨t.applied, rest⟩ : PartialTree).apply)

/-- What steps use up: two for each family not applied and one for each waiting node. -/
def weight (f : Forest) (t : PartialTree) : Nat :=
  2 * (f.choices.filter fun c => c ∉ t.applied).length + t.pending.length

theorem length_filter_notMem_cons_lt {a : Choice} {l seen : List Choice}
    (ha : a ∈ l) (h : a ∉ seen) :
    (l.filter fun x => x ∉ a :: seen).length < (l.filter fun x => x ∉ seen).length := by
  have e : (l.filter fun x => x ∉ a :: seen) =
      (l.filter fun x => x ∉ seen).filter fun x => decide (x ≠ a) := by
    rw [List.filter_filter]
    refine List.filter_congr fun x _ => ?_
    simp [List.mem_cons, not_or]
  rw [e]
  refine List.length_filter_lt_length_iff_exists.mpr
    ⟨a, List.mem_filter.mpr ⟨ha, by simpa using h⟩, ?_⟩
  simp

theorem weight_apply {f : Forest} {t : PartialTree} {c : Choice} (hc : c ∈ f.choices)
    (h : c ∉ t.applied) : f.weight (t.apply c) ≤ f.weight t := by
  have hlt := length_filter_notMem_cons_lt hc h
  have hleft : c.family.left?.toList.length ≤ 1 := by cases c.family.left? <;> simp
  change 2 * (f.choices.filter fun d => d ∉ c :: t.applied).length +
    (c.family.left?.toList ++ t.pending).length.succ ≤ 2 * _ + _
  rw [List.length_append]
  omega

/-- Every step makes the partial tree, and those split off, lighter. -/
theorem weight_expand {f : Forest} {t t' : PartialTree} {forks : List PartialTree}
    (h : f.expand t = some (t', forks)) :
    f.weight t' < f.weight t ∧ ∀ u ∈ forks, f.weight u < f.weight t := by
  unfold expand at h
  split at h
  · cases h
  · next id rest hp =>
    have hrest : f.weight ⟨t.applied, rest⟩ < f.weight t := by
      simp [weight, hp]
    split at h
    · cases h
      exact ⟨hrest, by simp⟩
    · next c others hf =>
      cases h
      have hmem : ∀ d ∈ c :: others, d ∈ f.choices ∧ d ∉ t.applied := by
        intro d hd
        have := List.mem_filter.mp (hf ▸ hd)
        exact ⟨mem_choices_of_mem_choicesAt this.1, by simpa using this.2⟩
      constructor
      · have := hmem c (by simp)
        exact Nat.lt_of_le_of_lt (weight_apply this.1 this.2) hrest
      · intro u hu
        obtain ⟨d, hd, rfl⟩ := List.mem_map.mp hu
        have := hmem d (by simp [hd])
        exact Nat.lt_of_le_of_lt (weight_apply this.1 this.2) hrest

/-- Steps until no node waits; the partial trees split off go on top of `work`. -/
def finish (f : Forest) (t : PartialTree) (work : List PartialTree) :
    PartialTree × List PartialTree :=
  match _h : f.expand t with
  | none => (t, work)
  | some (t', forks) => f.finish t' (forks.reverse ++ work)
termination_by f.weight t
decreasing_by exact (weight_expand _h).1

/-- The next finished tree and what is to be finished after it. -/
def next? (f : Forest) : List PartialTree → Option (PartialTree × List PartialTree)
  | [] => none
  | t :: work => some (f.finish t work)

/-- The first `n` finished trees, or as many as there are, and what is to be finished after
them. -/
def take (f : Forest) : Nat → List PartialTree → List PartialTree × List PartialTree
  | 0, work => ([], work)
  | n + 1, work =>
    match f.next? work with
    | none => ([], [])
    | some (t, rest) => (t :: (f.take n rest).1, (f.take n rest).2)

/-- All finished trees that a partial tree leads to, in the order of unpacking. -/
def completions (f : Forest) (t : PartialTree) : List PartialTree :=
  match _h : f.expand t with
  | none => [t]
  | some (t', forks) => f.completions t' ++ forks.reverse.attach.flatMap fun u => f.completions u.1
termination_by f.weight t
decreasing_by
  · exact (weight_expand _h).1
  · exact (weight_expand _h).2 u.1 (List.mem_reverse.mp u.2)

/-- All trees under a root. -/
def trees (f : Forest) (root : NodeId) : List PartialTree := f.completions (.ofRoot root)

/-- A node as a vertex. -/
def vertex? (f : Forest) (id : NodeId) : Option Vertex :=
  f.nodes[id]?.map fun n => ⟨n.key.label.text, n.key.start, n.key.stop⟩

/-- An edge between nodes as an edge between vertices. -/
def edge? (f : Forest) (e : NodeId × NodeId) : Option Edge := do
  let parent ← f.vertex? e.1
  let child ← f.vertex? e.2
  return ⟨parent, child⟩

/-- A tree with its nodes shown as vertices. -/
def derivation (f : Forest) (t : PartialTree) : Derivation := ⟨t.edges.filterMap f.edge?⟩

end Forest

end Parsing
