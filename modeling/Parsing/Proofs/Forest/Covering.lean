/-
# Positions that an unfolding covers

The children of a family tile the span of their node, so for each position that the
node covers exactly one child covers it too. Along one position an unfolding is
therefore a trail: from the root to a child that covers the position, and on from
there, each time by a family not used before. The trail ends at a node that is
entered once more than it has families, and there is one such node for each position
(`Unfolds.exists_last`). It is a leaf, or a node with families that the trail has
come back to after using all of them.

Where no node lies below itself a trail meets no node twice
(`Walks.nodup_covering`).

Key definitions: `Forest.covers`, `Forest.Child`, `PartialTree.entered`,
`PartialTree.Reaches`, `PartialTree.Stops`, `Walks`.
Key theorems: `Forest.Valid.countP_children`, `Walks.nodup_covering`,
`Unfolds.exists_last`, `Unfolds.stops_iff`.
-/
import Mathlib.Logic.Relation
import Parsing.Proofs.Forest.Unfolding
import Parsing.Proofs.Forest.Valid

namespace Parsing

/-- A node known by `key`, as a vertex. -/
def NodeKey.vertex (key : NodeKey) : Vertex := ⟨key.label.text, key.start, key.stop⟩

namespace Forest

variable {f : Forest} {p : Nat} {id : NodeId} {c : Choice}

theorem vertex?_eq (f : Forest) (id : NodeId) : f.vertex? id = (f.key? id).map NodeKey.vertex := by
  rw [vertex?, key?, Option.map_map]
  rfl

theorem edge?_eq {e : NodeId × NodeId} {parent child : NodeKey} (hp : f.key? e.1 = some parent)
    (hc : f.key? e.2 = some child) : f.edge? e = some ⟨parent.vertex, child.vertex⟩ := by
  rw [edge?, vertex?_eq, vertex?_eq, hp, hc]
  rfl

/-- Whether the node covers the position. -/
def covers (f : Forest) (p : Nat) (id : NodeId) : Bool :=
  (f.key? id).any fun key => decide (key.start ≤ p ∧ p < key.stop)

/-- Whether the node `b` is a child of `a` in some family. -/
def Child (f : Forest) (a b : NodeId) : Prop := ∃ c ∈ f.choicesAt a, b ∈ c.children

theorem covers_of_key? {key : NodeKey} (h : f.key? id = some key) :
    f.covers p id = decide (key.start ≤ p ∧ p < key.stop) := by
  rw [covers, h, Option.any_some]

/-- A wide node covers the position where it starts. -/
theorem covers_start {key : NodeKey} (h : f.key? id = some key) (hwide : key.start < key.stop) :
    f.covers key.start id = true := by
  rw [covers_of_key? h]
  simpa using hwide

theorem Valid.choice (hf : f.Valid) (hc : c ∈ f.choicesAt id) :
    ∃ n, f.nodes[id]? = some n ∧ c.family ∈ n.families ∧ ∃ left? right,
      f.Names c.family left? right ∧ Family.check n.key left? right = .ok () := by
  obtain ⟨-, n, hn, hfam⟩ := mem_choicesAt.mp hc
  have hmem := List.mem_of_getElem? hfam
  exact ⟨n, hn, hmem, hf.tiled n (List.mem_of_getElem? hn) c.family hmem⟩

/-- Each child of a family is known by one of its keys. -/
theorem Names.child {left? : Option NodeKey} {right : NodeKey} {y : NodeId}
    (h : f.Names c.family left? right) (hy : y ∈ c.children) :
    ∃ key, f.key? y = some key ∧ (left? = some key ∨ right = key) := by
  obtain ⟨hl, hr⟩ := h
  rcases List.mem_cons.mp hy with rfl | hy
  · exact ⟨right, hr, .inr rfl⟩
  · rw [Option.mem_toList] at hy
    rw [hy, Option.map_some] at hl
    obtain ⟨key, rfl, hkey⟩ := Option.map_eq_some_iff.mp hl.symm
    exact ⟨key, hkey.symm, .inl rfl⟩

theorem Valid.start_le (hf : f.Valid) {key : NodeKey} (h : f.key? id = some key) :
    key.start ≤ key.stop := by
  obtain ⟨n, hn, rfl⟩ := mem_of_key? h
  exact hf.forward n hn

/-- **One child covers what its node covers.** -/
theorem Valid.countP_children (hf : f.Valid) (hc : c ∈ f.choicesAt id) :
    c.children.countP (f.covers p) = if f.covers p id then 1 else 0 := by
  obtain ⟨n, hn, -, left?, right, ⟨hl, hr⟩, hcheck⟩ := hf.choice hc
  have hid : f.covers p id = decide (n.key.start ≤ p ∧ p < n.key.stop) :=
    covers_of_key? (key?_eq_some_iff.mpr ⟨n, hn, rfl⟩)
  have hright := covers_of_key? (p := p) hr
  have hrle := hf.start_le hr
  obtain ⟨hstop, hcheck⟩ := Family.check_eq_ok_iff.mp hcheck
  unfold Choice.children
  cases left? with
  | none =>
    rw [Option.map_none, Option.map_eq_none_iff] at hl
    rw [hl, Option.toList_none, List.countP_singleton, hright, hid, hstop, hcheck]
  | some left =>
    obtain ⟨a, ha, hkey⟩ := Option.map_eq_some_iff.mp hl
    have hleft := covers_of_key? (p := p) hkey
    have hlle := hf.start_le hkey
    obtain ⟨h₁, h₂, -⟩ := hcheck
    rw [ha, Option.toList_some, List.countP_cons, List.countP_singleton, hright, hleft, hid]
    simp only [decide_eq_true_eq]
    split <;> split <;> split <;> omega

theorem Valid.countP_children_append (hf : f.Valid) (hc : c ∈ f.choicesAt id) (rest : List NodeId) :
    (c.children ++ rest).countP (f.covers p) = (id :: rest).countP (f.covers p) := by
  rw [List.countP_append, hf.countP_children hc, Nat.add_comm, ← List.countP_cons]

/-- What holds from a node on down holds from its children on down. -/
theorem below_children {P : NodeId → Prop} {rest : List NodeId} (hc : c ∈ f.choicesAt id)
    (h : ∀ y ∈ id :: rest, ∀ x, Relation.ReflTransGen f.Child y x → P x) :
    ∀ y ∈ c.children ++ rest, ∀ x, Relation.ReflTransGen f.Child y x → P x := by
  intro y hy x hx
  rcases List.mem_append.mp hy with hy | hy
  · exact h id List.mem_cons_self x (.head ⟨c, hc, hy⟩ hx)
  · exact h y (List.mem_cons_of_mem _ hy) x hx

end Forest

namespace PartialTree

/-- The root and the ends of all edges: each node as often as it is entered. -/
def entered (t : PartialTree) (root : NodeId) : List NodeId := root :: t.edges.map (·.2)

/-- Whether edges lead from the root to the node. -/
def Reaches (t : PartialTree) (root id : NodeId) : Prop :=
  Relation.ReflTransGen (fun a b => (a, b) ∈ t.edges) root id

/-- Whether edges lead to the node and none leads on from there. -/
def Stops (t : PartialTree) (root id : NodeId) : Prop :=
  t.Reaches root id ∧ ∀ child, (id, child) ∉ t.edges

/-- The trees that are taken out of a forest one by one. -/
def Yielded (f : Forest) (root : NodeId) (t : PartialTree) : Prop :=
  ∃ n, t ∈ (f.take n [.ofRoot root]).1

theorem yielded_iff {f : Forest} {root : NodeId} {t : PartialTree} :
    t.Yielded f root ↔ t ∈ f.trees root := by
  unfold Yielded
  constructor
  · rintro ⟨n, hn⟩
    rw [Forest.take_ofRoot] at hn
    exact List.mem_of_mem_take hn
  · intro h
    refine ⟨(f.trees root).length, ?_⟩
    rwa [Forest.take_ofRoot, List.take_length]

theorem edges_of_applied (l : List Choice) :
    (⟨l.reverse, []⟩ : PartialTree).edges = l.flatMap Choice.edges := by
  rw [edges, List.reverse_reverse]

theorem mem_edges_iff {l : List Choice} {a b : NodeId} :
    (a, b) ∈ (⟨l.reverse, []⟩ : PartialTree).edges ↔ ∃ c ∈ l, c.node = a ∧ b ∈ c.children := by
  rw [edges_of_applied]
  simp only [List.mem_flatMap, Choice.edges, Choice.children, List.mem_map, List.mem_append,
    List.mem_cons, List.not_mem_nil, or_false, Prod.mk.injEq]
  constructor
  · rintro ⟨c, hc, d, hd, rfl, rfl⟩
    exact ⟨c, hc, rfl, hd.symm⟩
  · rintro ⟨c, hc, rfl, hd⟩
    exact ⟨c, hc, b, hd.symm, rfl, rfl⟩

theorem entered_perm (l : List Choice) (root : NodeId) :
    ((⟨l.reverse, []⟩ : PartialTree).entered root).Perm (root :: l.flatMap Choice.children) := by
  rw [entered, edges_of_applied, List.map_flatMap]
  refine List.Perm.cons root (List.Perm.flatMap_left l fun c _ => ?_)
  rw [Choice.edges, List.map_map, show (Prod.snd ∘ fun child => (c.node, child)) = id from rfl,
    List.map_id, Choice.children]
  exact List.perm_append_singleton _ _

end PartialTree

/-! ### Trails -/

/-- Choices are made node by node, at some of the nodes that wait. -/
inductive Walks (f : Forest) : List NodeId → List Choice → Prop
  | done : Walks f [] []
  | skip {l : List Choice} {id : NodeId} {rest : List NodeId} (hl : Walks f rest l) :
      Walks f (id :: rest) l
  | pick {l : List Choice} {id : NodeId} {rest : List NodeId} {c : Choice}
      (hc : c ∈ f.choicesAt id) (hl : Walks f (c.children ++ rest) l) :
      Walks f (id :: rest) (c :: l)

theorem Choice.children_perm (c : Choice) (rest : List NodeId) (l : List Choice) :
    (rest ++ (c :: l).flatMap Choice.children).Perm
      ((c.children ++ rest) ++ l.flatMap Choice.children) := by
  rw [List.flatMap_cons, ← List.append_assoc]
  exact List.perm_append_comm.append_right _

theorem Unfolds.walks {f : Forest} {applied l : List Choice} {pending : List NodeId}
    (h : Unfolds f applied pending l) : Walks f pending l := by
  induction h with
  | done => exact .done
  | skip _ _ ih => exact .skip ih
  | pick hc _ _ ih => exact .pick hc ih

namespace Walks

variable {f : Forest} {l : List Choice} {pending : List NodeId} {root id : NodeId} {p : Nat}

theorem mem_choicesAt (h : Walks f pending l) {c : Choice} (hc : c ∈ l) :
    c ∈ f.choicesAt c.node := by
  induction h with
  | done => cases hc
  | skip _ ih => exact ih hc
  | pick hd _ ih =>
    rcases List.mem_cons.mp hc with rfl | hc
    · rwa [Forest.node_of_mem_choicesAt hd]
    · exact ih hc

/-- Along a position, as many nodes are entered below choices as choices are made. -/
theorem countP_flatMap_children (hf : f.Valid) (h : Walks f pending l) (p : Nat) :
    (l.flatMap Choice.children).countP (f.covers p) = (l.map Choice.node).countP (f.covers p) := by
  have hmem : ∀ c ∈ l, c ∈ f.choicesAt c.node := fun c hc => h.mem_choicesAt hc
  clear h
  induction l with
  | nil => rfl
  | cons c l ih =>
    have ih := ih fun d hd => hmem d (List.mem_cons_of_mem _ hd)
    have hc := hf.countP_children (p := p) (hmem c List.mem_cons_self)
    calc ((c :: l).flatMap Choice.children).countP (f.covers p)
        = c.children.countP (f.covers p) + (l.flatMap Choice.children).countP (f.covers p) := by
          rw [List.flatMap_cons, List.countP_append]
      _ = (if f.covers p c.node then 1 else 0) + (l.map Choice.node).countP (f.covers p) := by
          rw [hc, ih]
      _ = ((c :: l).map Choice.node).countP (f.covers p) := by
          rw [List.map_cons, List.countP_cons, Nat.add_comm]

/-- What covers a position below the nodes that wait lies below one that covers it. -/
theorem exists_above (hf : f.Valid) (h : Walks f pending l) (hid : f.covers p id = true)
    (hmem : id ∈ l.flatMap Choice.children) :
    ∃ y ∈ pending, f.covers p y = true ∧ Relation.TransGen f.Child y id := by
  induction h with
  | done => cases hmem
  | skip _ ih =>
    obtain ⟨y, hy, hcov, hbelow⟩ := ih hmem
    exact ⟨y, List.mem_cons_of_mem _ hy, hcov, hbelow⟩
  | @pick l id' rest c hc hl ih =>
    -- a child covers the position only if its node does
    have hup : ∀ b ∈ c.children, f.covers p b = true → f.covers p id' = true := by
      intro b hb hcov
      have hcount := hf.countP_children (p := p) hc
      have hpos := List.countP_pos_iff.mpr ⟨b, hb, hcov⟩
      by_contra hnot
      rw [hcount, if_neg hnot] at hpos
      exact absurd hpos (Nat.lt_irrefl 0)
    have hhead : ∀ b ∈ c.children, f.Child id' b := fun b hb => ⟨c, hc, hb⟩
    rcases List.mem_append.mp hmem with hchild | hlater
    · exact ⟨id', List.mem_cons_self, hup id hchild hid, .single (hhead id hchild)⟩
    · obtain ⟨y, hy, hcov, hbelow⟩ := ih hlater
      rcases List.mem_append.mp hy with hy | hy
      · exact ⟨id', List.mem_cons_self, hup y hy hcov, .head (hhead y hy) hbelow⟩
      · exact ⟨y, List.mem_cons_of_mem _ hy, hcov, hbelow⟩

/-- A node that does not lie below itself is not entered again further on its trail. -/
theorem notMem_later {rest : List NodeId} (hf : f.Valid) (h : Walks f (id :: rest) l)
    (hid : f.covers p id = true) (hone : (id :: rest).countP (f.covers p) ≤ 1)
    (hacyc : ¬ Relation.TransGen f.Child id id) : id ∉ rest ++ l.flatMap Choice.children := by
  rw [List.countP_cons_of_pos hid] at hone
  have hnone : ∀ y ∈ rest, ¬ f.covers p y = true := by
    rw [← List.countP_eq_zero]
    omega
  intro hmem
  rcases List.mem_append.mp hmem with hmem | hmem
  · exact hnone id hmem hid
  · obtain ⟨y, hy, hcov, hbelow⟩ := h.exists_above hf hid hmem
    rcases List.mem_cons.mp hy with rfl | hy
    · exact hacyc hbelow
    · exact hnone y hy hcov

/-- **A trail meets no node twice** where no node lies below itself. -/
theorem nodup_covering (hf : f.Valid) (h : Walks f pending l)
    (hacyc : ∀ y ∈ pending, ∀ x, Relation.ReflTransGen f.Child y x →
      ¬ Relation.TransGen f.Child x x)
    (hone : pending.countP (f.covers p) ≤ 1) :
    ((pending ++ l.flatMap Choice.children).filter (f.covers p)).Nodup := by
  induction h with
  | done => simp
  | @skip l id rest hl ih =>
    have hrest : rest.countP (f.covers p) ≤ 1 :=
      Nat.le_trans ((List.sublist_cons_self id rest).countP_le) hone
    have ih := ih (fun y hy => hacyc y (List.mem_cons_of_mem _ hy)) hrest
    rw [List.cons_append]
    by_cases hid : f.covers p id = true
    · rw [List.filter_cons_of_pos hid, List.nodup_cons]
      have hnot := (Walks.skip hl).notMem_later hf hid hone (hacyc id List.mem_cons_self id .refl)
      exact ⟨fun hmem => hnot (List.mem_filter.mp hmem).1, ih⟩
    · rw [List.filter_cons_of_neg hid]
      exact ih
  | @pick l id rest c hc hl ih =>
    have hone' : (c.children ++ rest).countP (f.covers p) ≤ 1 :=
      hf.countP_children_append hc rest ▸ hone
    have hacyc' := Forest.below_children hc hacyc
    have ih := ((c.children_perm rest l).filter (f.covers p)).nodup_iff.mpr (ih hacyc' hone')
    rw [List.cons_append]
    by_cases hid : f.covers p id = true
    · rw [List.filter_cons_of_pos hid, List.nodup_cons]
      have hnot := (Walks.pick hc hl).notMem_later hf hid hone
        (hacyc id List.mem_cons_self id .refl)
      exact ⟨fun hmem => hnot (List.mem_filter.mp hmem).1, ih⟩
    · rw [List.filter_cons_of_neg hid]
      exact ih

/-- Choices are made at nodes that edges lead to. -/
theorem exists_path (h : Walks f pending l) {c : Choice} (hc : c ∈ l) :
    ∃ y ∈ pending, Relation.ReflTransGen (fun a b => ∃ d ∈ l, d.node = a ∧ b ∈ d.children) y
      c.node := by
  induction h with
  | done => cases hc
  | skip _ ih =>
    obtain ⟨y, hy, hpath⟩ := ih hc
    exact ⟨y, List.mem_cons_of_mem _ hy, hpath⟩
  | @pick l id rest d hd hl ih =>
    have hnode := Forest.node_of_mem_choicesAt hd
    rcases List.mem_cons.mp hc with rfl | hc
    · exact ⟨id, List.mem_cons_self, hnode ▸ .refl⟩
    · obtain ⟨y, hy, hpath⟩ := ih hc
      have hpath : Relation.ReflTransGen
          (fun a b => ∃ e ∈ d :: l, e.node = a ∧ b ∈ e.children) y c.node :=
        Relation.ReflTransGen.mono
          (fun a b ⟨e, he, hab⟩ => ⟨e, List.mem_cons_of_mem _ he, hab⟩) _ _ hpath
      rcases List.mem_append.mp hy with hy | hy
      · exact ⟨id, List.mem_cons_self, .head ⟨d, List.mem_cons_self, hnode, hy⟩ hpath⟩
      · exact ⟨y, List.mem_cons_of_mem _ hy, hpath⟩

end Walks

namespace Unfolds

variable {f : Forest} {l : List Choice} {root id : NodeId} {p : Nat}

/-- Choices at a node under the root are as many as its entrances, up to the families it has. -/
theorem count_chosen (h : Unfolds f [] [root] l) (id : NodeId) : (l.map Choice.node).count id =
    min ((root :: l.flatMap Choice.children).count id) (f.choicesAt id).length := by
  have hcount := h.count_node id List.nodup_nil (by simp)
  rw [List.countP_nil, Nat.add_zero, Nat.add_zero, List.singleton_append] at hcount
  rw [← hcount, List.count_eq_countP, List.countP_map]
  rfl

/-- **Each position has one last node**, entered once more than it has families; the other
nodes that cover the position are entered at most as often as they have families. -/
theorem exists_last (hf : f.Valid) (h : Unfolds f [] [root] l) (hp : f.covers p root = true) :
    ∃ x ∈ root :: l.flatMap Choice.children, f.covers p x = true ∧
      (root :: l.flatMap Choice.children).count x = (f.choicesAt x).length + 1 ∧
      ∀ id, f.covers p id = true → id ≠ x →
        (root :: l.flatMap Choice.children).count id ≤ (f.choicesAt id).length := by
  set entered := root :: l.flatMap Choice.children with hentered
  set chosen := l.map Choice.node with hchosen
  have hcount : ∀ id, chosen.count id = min (entered.count id) (f.choicesAt id).length :=
    h.count_chosen
  -- entrances that no choice follows
  have hperm : (chosen ++ entered.diff chosen).Perm entered :=
    List.subperm_append_diff_self_of_count_le fun id _ => by
      rw [hcount]
      exact Nat.min_le_left _ _
  have hone : (entered.diff chosen).countP (f.covers p) = 1 := by
    have hsum := hperm.countP_eq (f.covers p)
    have htotal : entered.countP (f.covers p) = chosen.countP (f.covers p) + 1 := by
      rw [hentered, List.countP_cons_of_pos hp, h.walks.countP_flatMap_children hf p]
    rw [List.countP_append, htotal] at hsum
    omega
  rw [List.countP_eq_length_filter] at hone
  obtain ⟨x, hx⟩ := List.length_eq_one_iff.mp hone
  have hxmem : x ∈ (entered.diff chosen).filter (f.covers p) := by rw [hx]; simp
  obtain ⟨hxdiff, hxp⟩ := List.mem_filter.mp hxmem
  have hsplit : ∀ id, entered.count id = chosen.count id + (entered.diff chosen).count id := by
    intro id
    rw [← hperm.count_eq, List.count_append]
  have hrest : ∀ id, f.covers p id = true →
      (entered.diff chosen).count id = if x = id then 1 else 0 := by
    intro id hid
    rw [← List.count_filter hid, hx, List.count_singleton]
    simp
  refine ⟨x, hperm.subset (List.mem_append_right _ hxdiff), hxp, ?_, ?_⟩
  · have h₁ := hsplit x
    have h₂ := hcount x
    rw [hrest x hxp, if_pos rfl] at h₁
    omega
  · intro id hid hne
    have h₁ := hsplit id
    have h₂ := hcount id
    rw [hrest id hid, if_neg (Ne.symm hne)] at h₁
    omega

/-! ### Where a tree stops -/

theorem reaches_iff (h : Unfolds f [] [root] l) :
    (⟨l.reverse, []⟩ : PartialTree).Reaches root id ↔ id ∈ root :: l.flatMap Choice.children := by
  unfold PartialTree.Reaches
  simp only [PartialTree.mem_edges_iff]
  constructor
  · intro hpath
    cases hpath using Relation.ReflTransGen.casesOn with
    | refl => exact List.mem_cons_self
    | tail _ hstep =>
      obtain ⟨c, hc, -, hmem⟩ := hstep
      exact List.mem_cons_of_mem _ (List.mem_flatMap.mpr ⟨c, hc, hmem⟩)
  · intro hmem
    rcases List.mem_cons.mp hmem with rfl | hmem
    · exact .refl
    · obtain ⟨c, hc, hchild⟩ := List.mem_flatMap.mp hmem
      obtain ⟨y, hy, hpath⟩ := h.walks.exists_path hc
      rw [List.mem_singleton.mp hy] at hpath
      exact hpath.tail ⟨c, hc, rfl, hchild⟩

/-- **A tree stops at the nodes without families that it enters**, and nowhere else. -/
theorem stops_iff (h : Unfolds f [] [root] l) : (⟨l.reverse, []⟩ : PartialTree).Stops root id ↔
    id ∈ root :: l.flatMap Choice.children ∧ f.choicesAt id = [] := by
  unfold PartialTree.Stops
  rw [h.reaches_iff]
  refine and_congr_right fun hmem => ?_
  constructor
  · intro hstop
    have hnot : (l.map Choice.node).count id = 0 := by
      rw [List.count_eq_zero]
      intro hid
      obtain ⟨c, hc, rfl⟩ := List.mem_map.mp hid
      exact hstop c.family.right
        (PartialTree.mem_edges_iff.mpr ⟨c, hc, rfl, List.mem_cons_self⟩)
    have hpos := List.count_pos_iff.mpr hmem
    have hcount := h.count_chosen id
    exact List.length_eq_zero_iff.mp (by omega)
  · intro hnone child hedge
    obtain ⟨c, hc, rfl, -⟩ := PartialTree.mem_edges_iff.mp hedge
    have := h.walks.mem_choicesAt hc
    rw [hnone] at this
    cases this

end Unfolds

end Parsing
