/-
# Leaves of parse trees

A parse tree with up to two children at each node ends in the tokens of its text, from
left to right (`Tree.fringe_bin`). As a derivation it is told by its edges alone, where a
vertex shows only the text of a label: a token might be shown like a node with children,
and would then be no leaf. Where no rule is empty it is not: a nonterminal is no token,
and a node for several symbols is wider than a token. So the leaves of the derivation
are the tokens in order (`Bin.Valid.leaves_eq`).

Key definitions: `Bin.inner`, `Bin.fringe`, `Bin.derivation`.
Key theorems: `Bin.entered_perm`, `Tree.fringe_bin`, `Bin.Valid.leaves_eq`.
-/
import Parsing.Proofs.Derivation
import Parsing.Proofs.Parse.Binary

namespace Parsing

/-- The node of a token. -/
def tokenKey (token : Symbol) (i : Nat) : NodeKey := ⟨i, i + 1, .symbol token⟩

namespace Bin

open scoped List

/-- The keys of the nodes with children. -/
def inner : Bin → List NodeKey
  | leaf _ => []
  | one k b => k :: b.inner
  | two k left right => k :: (right.inner ++ left.inner)

/-- The keys of the leaves from left to right. -/
def fringe : Bin → List NodeKey
  | leaf k => [k]
  | one _ b => b.fringe
  | two _ left right => left.fringe ++ right.fringe

/-- The tree as a derivation. -/
def derivation (b : Bin) : Derivation := ⟨b.edges.map fun e => ⟨e.1.vertex, e.2.vertex⟩⟩

theorem mem_map_fst_edges {b : Bin} {key : NodeKey} :
    key ∈ b.edges.map Prod.fst ↔ key ∈ b.inner := by
  induction b with
  | leaf => rfl
  | one k b ih => simp only [edges, inner, List.map_cons, List.mem_cons, ih]
  | two k left right ihl ihr =>
    simp only [edges, inner, List.map_cons, List.map_append, List.mem_cons, List.mem_append, ihl,
      ihr]
    tauto

/-- Edges lead from the root to all other nodes. -/
theorem entered_perm (b : Bin) : (b.key :: b.edges.map Prod.snd).Perm (b.inner ++ b.fringe) := by
  induction b with
  | leaf => exact .refl _
  | one k b ih => exact ih.cons k
  | two k left right ihl ihr =>
    refine List.Perm.cons k ?_
    calc left.key :: right.key :: (right.edges ++ left.edges).map Prod.snd
        ~ (right.key :: right.edges.map Prod.snd) ++ (left.key :: left.edges.map Prod.snd) := by
          rw [List.map_append, ← List.cons_append]
          exact List.perm_middle.symm
      _ ~ (right.inner ++ right.fringe) ++ (left.inner ++ left.fringe) := ihr.append ihl
      _ ~ right.inner ++ left.inner ++ (left.fringe ++ right.fringe) := by
          rw [List.append_assoc, List.append_assoc]
          refine List.Perm.append_left right.inner ?_
          rw [← List.append_assoc left.inner]
          exact List.perm_append_comm

end Bin

/-! ### The tokens of a parse tree -/

variable {rs : List Rule}

mutual

/-- **A parse tree ends in its text.** -/
theorem Tree.fringe_bin (heps : ∀ r ∈ rs, r.rhs ≠ []) : ∀ (t : Tree) (start : Nat), t.Valid rs →
    (t.bin start).fringe = (t.yield.zipIdx start).map fun (a, i) => tokenKey a i
  | .leaf a, start, _ => rfl
  | .node lhs .nil, start, h => absurd rfl (heps _ h.1)
  | .node lhs (.snoc .nil last), start, h => last.fringe_bin heps start h.2.2
  | .node lhs (.snoc (.snoc init x) last), start, h => by
    rw [Tree.yield_node, Row.yield_snoc, List.zipIdx_append, List.map_append, Tree.bin, Bin.fringe,
      (Row.snoc init x).fringe_front heps _ start h.2.1 (by simp), last.fringe_bin heps _ h.2.2]

/-- A row of parse trees ends in its text. -/
theorem Row.fringe_front (heps : ∀ r ∈ rs, r.rhs ≠ []) : ∀ (row : Row) {lhs : Symbol}
    (after : List Symbol) (start : Nat), row.Valid rs → row ≠ .nil →
    (row.front lhs after start).fringe = (row.yield.zipIdx start).map fun (a, i) => tokenKey a i
  | .nil, _, _, _, _, h => absurd rfl h
  | .snoc .nil x, _, _, start, h, _ => x.fringe_bin heps start h.2
  | .snoc (.snoc init x) last, _, after, start, h, _ => by
    rw [Row.yield_snoc, List.zipIdx_append, List.map_append, Row.front, Bin.fringe,
      (Row.snoc init x).fringe_front heps _ start h.1 (by simp), last.fringe_bin heps _ h.2]

end

/-! ### Derivations -/

section

open scoped List

variable {g : Grammar} {tokens : List Symbol} {b : Bin} {key : NodeKey}

theorem Bin.Valid.packed_of_mem_inner (hb : b.Valid g tokens) (hkey : key ∈ b.inner) :
    ∃ left? right, Packed g tokens key left? right := by
  induction b with
  | leaf => cases hkey
  | one k b ih =>
    rcases List.mem_cons.mp hkey with rfl | hkey
    · exact ⟨none, b.key, hb.1⟩
    · exact ih hb.2 hkey
  | two k left right ihl ihr =>
    rcases List.mem_cons.mp hkey with rfl | hkey
    · exact ⟨some left.key, right.key, hb.1⟩
    · rcases List.mem_append.mp hkey with hkey | hkey
      · exact ihr hb.2.2 hkey
      · exact ihl hb.2.1 hkey

/-- A root that is no leaf has children. -/
theorem Bin.Valid.key_mem_inner (hb : b.Valid g tokens) (h : ¬ Leaf tokens b.key) :
    b.key ∈ b.inner := by
  cases b with
  | leaf => exact absurd hb h
  | one | two => exact List.mem_cons_self

/-- Where no rule is empty, no node with children is shown like a token. -/
theorem Packed.vertex_ne_token (hT : ∀ t ∈ tokens, g.isNonterminal t = false)
    (heps : ∀ r ∈ g.rules, r.rhs ≠ []) {left? : Option NodeKey} {right : NodeKey}
    (h : Packed g tokens key left? right) {a : Symbol} (ha : a ∈ tokens) (i : Nat) :
    key.vertex ≠ (tokenKey a i).vertex := by
  have hsymbol : ∀ {A : Symbol} {rhs : List Symbol} {j k : Nat}, (⟨A, rhs⟩ : Rule) ∈ g.rules →
      NodeKey.vertex ⟨j, k, .symbol A⟩ ≠ (tokenKey a i).vertex := by
    intro A rhs j k hr hv
    have hA : A = a := congrArg Vertex.label hv
    subst hA
    exact Grammar.isNonterminal_eq_false_iff.mp (hT A ha) _ hr rfl
  intro hv
  cases h with
  | empty hr | unit hr | rule hr => exact hsymbol hr hv
  | @part A X before after j k i' hr hb _ hjk hki hbefore hX =>
    have hstart : j = i := congrArg Vertex.start hv
    have hstop : i' = i + 1 := congrArg Vertex.stop hv
    have h₁ := hbefore.lt_of_stretch heps hb
    have h₂ := hX.lt_of_stretch heps (by simp)
    omega

/-- A node with children is shown as a parent. -/
theorem Bin.vertex_mem_parents (hkey : key ∈ b.inner) :
    key.vertex ∈ b.derivation.edges.map (·.parent) := by
  obtain ⟨e, he, rfl⟩ := List.mem_map.mp (Bin.mem_map_fst_edges.mpr hkey)
  simp only [derivation, List.map_map, List.mem_map, Function.comp_apply]
  exact ⟨e, he, rfl⟩

/-- Where no rule is empty, no token is shown as a parent. -/
theorem Bin.Valid.token_notMem_parents (hT : ∀ t ∈ tokens, g.isNonterminal t = false)
    (heps : ∀ r ∈ g.rules, r.rhs ≠ []) (hb : b.Valid g tokens) {a : Symbol} (ha : a ∈ tokens)
    (i : Nat) : (tokenKey a i).vertex ∉ b.derivation.edges.map (·.parent) := by
  simp only [derivation, List.map_map, List.mem_map, Function.comp_apply]
  rintro ⟨e, he, hv⟩
  obtain ⟨l?, r, hpacked⟩ :=
    hb.packed_of_mem_inner (Bin.mem_map_fst_edges.mp (List.mem_map_of_mem he))
  exact hpacked.vertex_ne_token hT heps ha i hv

/-- Tokens in their places stand from left to right. -/
theorem pairwise_tokens (tokens : List Symbol) :
    (tokens.zipIdx.map fun (a, i) => (⟨a, i, i + 1⟩ : Vertex)).Pairwise
      fun v w => v.start < w.start := by
  have hrange : (tokens.zipIdx.map Prod.snd).Pairwise (· < ·) := by
    rw [List.zipIdx_map_snd]
    exact List.pairwise_lt_range'
  rw [List.pairwise_map]
  exact List.pairwise_map.mp hrange

/-- **The leaves of a derivation are the tokens in order** when the tree ends in them. -/
theorem Bin.Valid.leaves_eq (hT : ∀ t ∈ tokens, g.isNonterminal t = false)
    (heps : ∀ r ∈ g.rules, r.rhs ≠ []) (hb : b.Valid g tokens) (hroot : ¬ Leaf tokens b.key)
    (hfringe : b.fringe = tokens.zipIdx.map fun (a, i) => tokenKey a i) :
    b.derivation.leaves = tokens.zipIdx.map fun (a, i) => ⟨a, i, i + 1⟩ := by
  refine Derivation.leaves_eq (pairwise_tokens tokens) ?_
  set isLeaf : Vertex → Bool := fun v => decide (v ∉ b.derivation.edges.map (·.parent)) with hleaf
  have hinner : ∀ key ∈ b.inner, ¬ isLeaf key.vertex = true := by
    intro key hkey
    rw [hleaf, decide_eq_true_eq, not_not]
    exact Bin.vertex_mem_parents hkey
  have hnone : (b.inner.map NodeKey.vertex).filter isLeaf = [] := by
    rw [List.filter_eq_nil_iff]
    intro v hv
    obtain ⟨key, hkey, rfl⟩ := List.mem_map.mp hv
    exact hinner key hkey
  have hall : (b.fringe.map NodeKey.vertex).filter isLeaf = b.fringe.map NodeKey.vertex := by
    rw [List.filter_eq_self, hfringe]
    intro v hv
    obtain ⟨key, hkey, rfl⟩ := List.mem_map.mp hv
    obtain ⟨⟨a, i⟩, ha, rfl⟩ := List.mem_map.mp hkey
    rw [hleaf, decide_eq_true_eq]
    exact hb.token_notMem_parents hT heps (List.fst_mem_of_mem_zipIdx ha) i
  have hchildren :
      b.derivation.edges.map (·.child) = (b.edges.map Prod.snd).map NodeKey.vertex := by
    simp [derivation]
  -- the root is an inner node, so the children that are leaves are the nodes that are
  calc (b.derivation.edges.map (·.child)).filter isLeaf
      = ((b.key :: b.edges.map Prod.snd).map NodeKey.vertex).filter isLeaf := by
        rw [hchildren, List.map_cons,
          List.filter_cons_of_neg (hinner b.key (hb.key_mem_inner hroot))]
    _ ~ ((b.inner ++ b.fringe).map NodeKey.vertex).filter isLeaf :=
        (b.entered_perm.map NodeKey.vertex).filter isLeaf
    _ = b.fringe.map NodeKey.vertex := by
        rw [List.map_append, List.filter_append, hnone, hall, List.nil_append]
    _ = tokens.zipIdx.map fun (a, i) => ⟨a, i, i + 1⟩ := by
        rw [hfringe, List.map_map]
        rfl

end

/-! ### Derivations taken out of a forest -/

namespace Forest

variable {f : Forest}

theorem derivation_eq {t : PartialTree} {b : Bin}
    (h : t.edges.map (Prod.map f.key? f.key?) = b.edges.map (Prod.map some some)) :
    f.derivation t = b.derivation := by
  unfold derivation Bin.derivation
  generalize t.edges = es at h
  generalize b.edges = ks at h
  refine congrArg Derivation.mk ?_
  induction es generalizing ks with
  | nil =>
    rw [List.map_nil, eq_comm, List.map_eq_nil_iff] at h
    rw [h, List.filterMap_nil, List.map_nil]
  | cons e es ih =>
    obtain ⟨k, ks, rfl, hk, hks⟩ := List.map_eq_cons_iff.mp h.symm
    obtain ⟨hp, hc⟩ := Prod.mk.inj hk
    rw [List.filterMap_cons_some (edge?_eq hp.symm hc.symm), List.map_cons, ih ks hks.symm]

end Forest

end Parsing
