/-
# Unpacking ends

A partial tree applies no family twice, so a forest has families for so many rounds and no more,
whether it holds cycles or not: each round uses a node that waits, or it uses a family and lets at
most two nodes wait (`Forest.weight`). The partial trees split off on the way are lighter than the
one they come from. Therefore one bound holds for the rounds of every call
(`Forest.nextWithin_take`), and the calls come to an end too, for they give the trees under the
root one by one (`Forest.next?_take`).

A tree is told by the pairs of a node and a family that it applies, in order. Two trees that part
do so at a node where each applies a family of its own, and keep these families from there on; so
no two trees apply the same pairs in the same order.

Key definitions: `Choice.pair`, `PartialTree.pairs`, `Forest.finishWithin`, `Forest.nextWithin`.
Key theorems: `Forest.finishWithin_eq`, `Forest.nextWithin_take`, `Forest.next?_take`,
`Unfolds.nodup`, `Forest.Valid.nodup_pairs`, `Forest.Valid.edge_inside`,
`Forest.Valid.exists_node_of_entered`, `Forest.unpacking_ends`.
-/
import Parsing.Proofs.Forest.Covering
import Parsing.Proofs.Forest.History

namespace Parsing

/-- The node and the family that a choice applies to it. -/
def Choice.pair (c : Choice) : NodeId × Family := (c.node, c.family)

/-- The nodes with the families applied to them, in order. -/
def PartialTree.pairs (t : PartialTree) : List (NodeId × Family) :=
  t.applied.reverse.map Choice.pair

namespace Forest

variable {f : Forest} {t t' : PartialTree} {work : List PartialTree} {root : NodeId}
  {rounds bound : Nat}

/-! ### One call -/

/-- Steps until no node waits, if the given number of rounds is enough, the last of which finds that
none does; the partial trees split off go on top of `work`. -/
def finishWithin (f : Forest) : Nat → PartialTree → List PartialTree →
    Option (PartialTree × List PartialTree)
  | 0, _, _ => none
  | rounds + 1, t, work =>
    match f.expand t with
    | none => some (t, work)
    | some (t', forks) => f.finishWithin rounds t' (forks.reverse ++ work)

/-- The next finished tree and what is to be finished after it, if there is one; all this if the
given number of rounds is enough. -/
def nextWithin (f : Forest) (rounds : Nat) :
    List PartialTree → Option (Option (PartialTree × List PartialTree))
  | [] => some none
  | t :: work => (f.finishWithin rounds t work).map some

/-- **A call has as many rounds as the partial tree has weight.** -/
theorem finishWithin_eq : ∀ {rounds : Nat} {t : PartialTree} {work : List PartialTree},
    f.weight t < rounds → f.finishWithin rounds t work = some (f.finish t work)
  | rounds + 1, t, work, h => by
    unfold finishWithin
    cases hexpand : f.expand t with
    | none => rw [finish_of_done hexpand]
    | some r =>
      obtain ⟨t', forks⟩ := r
      have hlt := (weight_expand hexpand).1
      rw [finish_of_expand hexpand]
      exact finishWithin_eq (by omega)

theorem nextWithin_eq (h : ∀ t ∈ work, f.weight t < rounds) :
    f.nextWithin rounds work = some (f.next? work) := by
  cases work with
  | nil => rfl
  | cons t work =>
    rw [nextWithin, finishWithin_eq (h t List.mem_cons_self)]
    rfl

/-- A call leaves nothing heavier than what it begins with. -/
theorem weight_finish (ht : f.weight t ≤ bound) (hwork : ∀ u ∈ work, f.weight u ≤ bound) :
    ∀ u ∈ (f.finish t work).2, f.weight u ≤ bound := by
  induction t, work using finish.induct f with
  | case1 t work h =>
    rw [finish_of_done h]
    exact hwork
  | case2 t work t' forks h ih =>
    obtain ⟨hlt, hforks⟩ := weight_expand h
    rw [finish_of_expand h]
    refine ih (by omega) fun u hu => ?_
    rcases List.mem_append.mp hu with hu | hu
    · have := hforks u (List.mem_reverse.mp hu)
      omega
    · exact hwork u hu

theorem weight_take : ∀ (n : Nat) {work : List PartialTree}, (∀ u ∈ work, f.weight u ≤ bound) →
    ∀ u ∈ (f.take n work).2, f.weight u ≤ bound
  | 0, _, h => h
  | _ + 1, [], h => h
  | n + 1, t :: work, h => by
    have hwork : ∀ u ∈ work, f.weight u ≤ bound := fun u hu => h u (List.mem_cons_of_mem t hu)
    exact weight_take n (weight_finish (h t List.mem_cons_self) hwork)

theorem weight_ofRoot (f : Forest) (root : NodeId) :
    f.weight (.ofRoot root) = 2 * f.choices.length + 1 := by
  have hall : (f.choices.filter fun c => c ∉ (PartialTree.ofRoot root).applied) = f.choices :=
    List.filter_eq_self.mpr fun c _ => by simp [PartialTree.ofRoot]
  rw [weight, hall]
  rfl

/-- **Every call ends**, within two rounds for each family of the forest and two more. -/
theorem nextWithin_take (f : Forest) (root : NodeId) (n : Nat) :
    f.nextWithin (2 * f.choices.length + 2) (f.take n [.ofRoot root]).2 =
      some (f.next? (f.take n [.ofRoot root]).2) := by
  have hstart : ∀ u ∈ [PartialTree.ofRoot root], f.weight u ≤ 2 * f.choices.length + 1 := by
    intro u hu
    rw [List.mem_singleton.mp hu]
    exact Nat.le_of_eq (weight_ofRoot f root)
  exact nextWithin_eq fun u hu => Nat.lt_succ_of_le (weight_take n hstart u hu)

/-! ### All calls -/

/-- The calls give the trees that are left, one by one, and then none. -/
theorem next?_take_eq (f : Forest) : ∀ (n : Nat) (work : List PartialTree),
    (f.next? (f.take n work).2).map (·.1) = (work.flatMap f.completions)[n]?
  | n, [] => by cases n <;> rfl
  | 0, t :: work => by
    rw [List.flatMap_cons, ← finish_cons]
    rfl
  | n + 1, t :: work => by
    have ih := next?_take_eq f n (f.finish t work).2
    rw [List.flatMap_cons, ← finish_cons, List.getElem?_cons_succ]
    exact ih

/-- **The calls give the trees under the root one by one.** -/
theorem next?_take (f : Forest) (root : NodeId) (n : Nat) :
    (f.next? (f.take n [.ofRoot root]).2).map (·.1) = (f.trees root)[n]? := by
  rw [next?_take_eq, List.flatMap_singleton]
  rfl

theorem trees_ne_nil (f : Forest) (root : NodeId) : f.trees root ≠ [] := by
  have h := finish_cons (f := f) (.ofRoot root) []
  rw [List.flatMap_nil, List.append_nil] at h
  unfold trees
  rw [← h]
  exact List.cons_ne_nil _ _

end Forest

/-! ### One tree -/

namespace Unfolds

variable {f : Forest} {applied l : List Choice} {pending : List NodeId} {root id : NodeId}
  {fam : Family}

theorem nodup (h : Unfolds f applied pending l) (happlied : applied.Nodup) :
    (l.reverse ++ applied).Nodup := by
  induction h with
  | done => exact happlied
  | skip _ _ ih => exact ih happlied
  | pick hc hnew _ ih =>
    rw [List.reverse_cons, List.append_assoc]
    exact ih (List.nodup_cons.mpr ⟨hnew, happlied⟩)

theorem exists_chosen (h : Unfolds f [] [root] l) (hid : id ∈ root :: l.flatMap Choice.children)
    (hne : f.choicesAt id ≠ []) : ∃ c ∈ l, c.node = id := by
  have hentered := List.count_pos_iff.mpr hid
  have hfamilies := List.length_pos_iff.mpr hne
  have hcount := h.count_chosen id
  exact List.mem_map.mp (List.count_pos_iff.mp (by omega))

end Unfolds

namespace Forest

variable {f : Forest} {root id : NodeId} {fam : Family} {c d : Choice} {t : PartialTree}
  {l l' : List Choice}

theorem has_of_mem_choicesAt (h : c ∈ f.choicesAt id) : f.Has id c.family := by
  obtain ⟨-, n, hn, hfam⟩ := mem_choicesAt.mp h
  exact ⟨n, hn, List.mem_of_getElem? hfam⟩

theorem choicesAt_ne_nil (h : f.Has id fam) : f.choicesAt id ≠ [] := by
  obtain ⟨n, hn, hfam⟩ := h
  have hlength := length_choicesAt hn
  have hpos := List.length_pos_of_mem hfam
  exact List.length_pos_iff.mp (hlength ▸ hpos)

theorem Valid.choice_inj (hf : f.Valid) (hc : c ∈ f.choicesAt c.node)
    (hd : d ∈ f.choicesAt d.node) (h : c.pair = d.pair) : c = d := by
  obtain ⟨node, i, fam⟩ := c
  obtain ⟨node', j, fam'⟩ := d
  obtain ⟨rfl, rfl⟩ := Prod.mk.inj h
  obtain ⟨-, n, hn, hi⟩ := mem_choicesAt.mp hc
  obtain ⟨-, n', hn', hj⟩ := mem_choicesAt.mp hd
  obtain rfl := Option.some.inj (hn.symm.trans hn')
  have hlt := (List.getElem?_eq_some_iff.mp hi).1
  obtain rfl := (List.getElem?_inj hlt (hf.once n (List.mem_of_getElem? hn))).mp (hi.trans hj.symm)
  rfl

theorem Valid.eq_of_map_pair (hf : f.Valid) : ∀ {l l' : List Choice},
    (∀ c ∈ l, c ∈ f.choicesAt c.node) → (∀ c ∈ l', c ∈ f.choicesAt c.node) →
    l.map Choice.pair = l'.map Choice.pair → l = l'
  | [], [], _, _, _ => rfl
  | c :: l, d :: l', hl, hl', h => by
    obtain ⟨hpair, hrest⟩ := List.cons.inj h
    obtain ⟨hc, hl⟩ := List.forall_mem_cons.mp hl
    obtain ⟨hd, hl'⟩ := List.forall_mem_cons.mp hl'
    rw [hf.choice_inj hc hd hpair, hf.eq_of_map_pair hl hl' hrest]

/-- **No two trees apply the same pairs in the same order.** -/
theorem Valid.nodup_pairs (hf : f.Valid) (root : NodeId) :
    ((f.trees root).map PartialTree.pairs).Nodup := by
  refine List.Nodup.map_on ?_ (nodup_completions _ _)
  intro t ht t' ht' hpairs
  obtain ⟨l, hl, rfl⟩ := mem_trees_iff.mp ht
  obtain ⟨l', hl', rfl⟩ := mem_trees_iff.mp ht'
  simp only [PartialTree.pairs, List.reverse_reverse] at hpairs
  rw [hf.eq_of_map_pair (fun c hc => hl.walks.mem_choicesAt hc)
    (fun c hc => hl'.walks.mem_choicesAt hc) hpairs]

/-- **A child's span lies in that of its node.** -/
theorem Valid.edge_inside (hf : f.Valid) (hc : c ∈ f.choicesAt id) {child : NodeId}
    (hchild : child ∈ c.children) : ∃ e, f.edge? (id, child) = some e ∧
      e.parent.start ≤ e.child.start ∧ e.child.stop ≤ e.parent.stop := by
  obtain ⟨n, hn, -, left?, right, hnames, hcheck⟩ := hf.choice hc
  have hparent : f.key? id = some n.key := key?_eq_some_iff.mpr ⟨n, hn, rfl⟩
  obtain ⟨hstop, htiles⟩ := Family.check_eq_ok_iff.mp hcheck
  obtain ⟨key, hkey, hwhich⟩ := hnames.child hchild
  have hright := hf.start_le hnames.2
  have hspan := hf.start_le hkey
  refine ⟨_, edge?_eq hparent hkey, ?_⟩
  simp only [NodeKey.vertex]
  cases left? with
  | none =>
    obtain rfl : right = key := by simpa using hwhich
    omega
  | some left =>
    obtain ⟨hstart, hmeet, -⟩ := htiles
    rcases hwhich with hleft | rfl
    · obtain rfl := Option.some.inj hleft
      omega
    · obtain ⟨a, -, hleft⟩ := Option.map_eq_some_iff.mp hnames.1
      have := hf.start_le hleft
      omega

/-- **Unpacking meets nodes only** when it starts at one. -/
theorem Valid.exists_node_of_entered (hf : f.Valid) (hroot : root < f.size)
    (h : Unfolds f [] [root] l) (hid : id ∈ root :: l.flatMap Choice.children) :
    ∃ n, f.node id = .ok n := by
  rcases List.mem_cons.mp hid with rfl | hid
  · exact ⟨_, node_eq_ok_iff.mpr (List.getElem?_eq_getElem hroot)⟩
  · obtain ⟨c, hc, hchild⟩ := List.mem_flatMap.mp hid
    obtain ⟨-, -, -, _, _, hnames, -⟩ := hf.choice (h.walks.mem_choicesAt hc)
    obtain ⟨key, hkey, -⟩ := hnames.child hchild
    obtain ⟨n, hn, -⟩ := key?_eq_some_iff.mp hkey
    exact ⟨n, node_eq_ok_iff.mpr hn⟩

/-- **Unpacking ends.** Let any nodes be created and any families added, so that nodes may lie
below themselves, and take trees from any node on, call by call. Each call ends, within two rounds
for each family and two more. The calls give finitely many trees, one at least, and after them
none. Whatever is entered on the way is a node. A tree applies no family of a node twice, and
families of the forest only; it applies one at least of each node with families that is the root or a
child; and a child's span lies in that of its parent. No two trees apply the same families to the
same nodes in the same order. -/
theorem unpacking_ends (calls : List Call) {root : NodeId} (hroot : root < (after calls).size) :
    let f := after calls
    let work := fun n => (f.take n [.ofRoot root]).2
    (∀ n, f.nextWithin (2 * f.choices.length + 2) (work n) = some (f.next? (work n))) ∧
    ∃ trees : List PartialTree, trees ≠ [] ∧
      (∀ n, (f.next? (work n)).map (·.1) = trees[n]?) ∧
      (trees.map PartialTree.pairs).Nodup ∧
      ∀ t ∈ trees, (∀ id ∈ t.entered root, ∃ n, f.node id = .ok n) ∧
        t.pairs.Nodup ∧ (∀ p ∈ t.pairs, f.Has p.1 p.2) ∧
        (∀ id ∈ t.entered root, (∃ fam, f.Has id fam) → ∃ fam, (id, fam) ∈ t.pairs) ∧
        ∀ e ∈ t.edges, ∃ edge, f.edge? e = some edge ∧
          edge.parent.start ≤ edge.child.start ∧ edge.child.stop ≤ edge.parent.stop := by
  intro f work
  have hf : f.Valid := valid_after calls
  refine ⟨f.nextWithin_take root, f.trees root, f.trees_ne_nil root, f.next?_take root,
    hf.nodup_pairs root, fun t ht => ?_⟩
  obtain ⟨l, hl, rfl⟩ := mem_trees_iff.mp ht
  have hpairs : (⟨l.reverse, []⟩ : PartialTree).pairs = l.map Choice.pair := by
    rw [PartialTree.pairs, List.reverse_reverse]
  have hchoices : ∀ c ∈ l, c ∈ f.choicesAt c.node := fun c hc => hl.walks.mem_choicesAt hc
  have hentered : ∀ id ∈ (⟨l.reverse, []⟩ : PartialTree).entered root,
      id ∈ root :: l.flatMap Choice.children :=
    fun id hid => (PartialTree.entered_perm l root).subset hid
  rw [hpairs]
  refine ⟨fun id hid => hf.exists_node_of_entered hroot hl (hentered id hid), ?_, ?_, ?_, ?_⟩
  · have hnodup : l.Nodup := by simpa using hl.nodup List.nodup_nil
    exact hnodup.map_on fun c hc d hd => hf.choice_inj (hchoices c hc) (hchoices d hd)
  · intro p hp
    obtain ⟨c, hc, rfl⟩ := List.mem_map.mp hp
    exact has_of_mem_choicesAt (hchoices c hc)
  · rintro id hid ⟨fam, hfam⟩
    obtain ⟨c, hc, rfl⟩ := hl.exists_chosen (hentered id hid) (choicesAt_ne_nil hfam)
    exact ⟨c.family, List.mem_map_of_mem hc⟩
  · rintro ⟨parent, child⟩ he
    obtain ⟨c, hc, rfl, hchild⟩ := PartialTree.mem_edges_iff.mp he
    exact hf.edge_inside (hchoices c hc) hchild

/-- The theorem at two nodes below each other, one of them with a leaf as well. -/
theorem unpacking_ends_cycle :
    let f := after [.ensure ⟨0, 1, .symbol "S"⟩, .ensure ⟨0, 1, .symbol "M"⟩,
      .ensure ⟨0, 1, .symbol "a"⟩, .addFamily 0 ⟨none, 1⟩, .addFamily 1 ⟨none, 0⟩,
      .addFamily 1 ⟨none, 2⟩]
    0 < f.size ∧ f.choices.length = 3 ∧ ∃ trees : List PartialTree, trees ≠ [] ∧
      (∀ n, (f.next? (f.take n [.ofRoot 0]).2).map (·.1) = trees[n]?) ∧
      ∀ t ∈ trees, t.pairs.Nodup ∧ ∀ id ∈ t.entered 0, ∃ n, f.node id = .ok n := by
  intro f
  have hroot : 0 < f.size := by decide
  obtain ⟨-, trees, hne, hcalls, -, htrees⟩ := unpacking_ends _ hroot
  exact ⟨hroot, by decide, trees, hne, hcalls, fun t ht =>
    ⟨(htrees t ht).2.1, (htrees t ht).1⟩⟩

/-- A node that is its only child is expanded once. -/
example :
    let f := after [.ensure ⟨0, 1, .symbol "S"⟩, .addFamily 0 ⟨none, 0⟩]
    f.nextWithin 4 [.ofRoot 0] = some (some (⟨[⟨0, 0, ⟨none, 0⟩⟩], []⟩, [])) := by
  decide

end Forest

end Parsing
