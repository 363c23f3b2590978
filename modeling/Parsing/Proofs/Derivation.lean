/-
# The order of edges

Edges are compared by four numbers and then by two texts, each looked at only when what
comes before it is equal. So their order is total and transitive, and sorting puts the
edges of a derivation in that order. The start of the child comes first: the leaves,
which are the children that are no parents, stand from left to right.

Key theorems: `Edge.le_trans`, `Edge.le_total`, `Derivation.mem_leaves_iff`,
`Derivation.pairwise_leaves`, `Derivation.leaves_eq`.
-/
import Mathlib.Data.List.Nodup
import Parsing.Derivation.Dot

namespace Parsing

namespace Edge

variable {a b : Edge}

/-- Edges are compared by one thing after the other. -/
theorem cmp_eq : cmp =
    compareLex (compareLex (compareLex (compareLex (compareLex
      (compareOn (·.child.start)) fun a b => compareOn (·.child.width) b a)
      (compareOn (·.parent.start))) fun a b => compareOn (·.parent.width) b a)
      (compareOn (·.parent.label))) (compareOn (·.child.label)) := rfl

instance : Std.TransCmp cmp := by
  rw [cmp_eq]
  infer_instance

theorem le_trans (a b c : Edge) (hab : a.le b = true) (hbc : b.le c = true) : a.le c = true :=
  Std.TransCmp.isLE_trans hab hbc

theorem le_total (a b : Edge) : (a.le b || b.le a) = true := by
  have hswap : b.cmp a = (a.cmp b).swap := Std.OrientedCmp.eq_swap
  unfold le
  rw [hswap]
  cases a.cmp b <;> rfl

theorem start_le_of_le (h : a.le b = true) : a.child.start ≤ b.child.start := by
  by_contra hlt
  have hgt : compare a.child.start b.child.start = .gt := by
    rw [Nat.compare_eq_gt]
    omega
  simp [le, cmp, hgt] at h

end Edge

namespace Derivation

variable {d : Derivation} {v : Vertex}

theorem sorted_perm (d : Derivation) : d.sorted.Perm d.edges := List.mergeSort_perm _ _

theorem pairwise_sorted (d : Derivation) : d.sorted.Pairwise fun a b => a.le b = true := by
  unfold sorted
  exact List.pairwise_mergeSort Edge.le_trans Edge.le_total d.edges

/-- The leaves are the children that are no parents, put in order. -/
theorem leaves_perm (d : Derivation) : d.leaves.Perm
    ((d.edges.map (·.child)).filter fun v => decide (v ∉ d.edges.map (·.parent))) :=
  (d.sorted_perm.map _).filter _

theorem mem_leaves_iff :
    v ∈ d.leaves ↔ v ∈ d.edges.map (·.child) ∧ v ∉ d.edges.map (·.parent) := by
  rw [d.leaves_perm.mem_iff, List.mem_filter, decide_eq_true_eq]

/-- **Leaves stand from left to right.** -/
theorem pairwise_leaves (d : Derivation) : d.leaves.Pairwise fun v w => v.start ≤ w.start := by
  refine List.Pairwise.filter _ ?_
  rw [List.pairwise_map]
  exact d.pairwise_sorted.imp Edge.start_le_of_le

/-- **Leaves are told by where they start** when no two start in one place. -/
theorem leaves_eq {vs : List Vertex} (hvs : vs.Pairwise fun v w => v.start < w.start)
    (hperm : ((d.edges.map (·.child)).filter fun v =>
      decide (v ∉ d.edges.map (·.parent))).Perm vs) : d.leaves = vs := by
  have hperm : d.leaves.Perm vs := d.leaves_perm.trans hperm
  have hstarts : (vs.map (·.start)).Nodup := by
    unfold List.Nodup
    rw [List.pairwise_map]
    exact hvs.imp Nat.ne_of_lt
  refine List.Perm.eq_of_pairwise (fun v w hv hw h₁ h₂ => ?_) d.pairwise_leaves
    (hvs.imp Nat.le_of_lt) hperm
  exact List.inj_on_of_nodup_map hstarts (hperm.subset hv) hw (Nat.le_antisymm h₁ h₂)

end Derivation

end Parsing
