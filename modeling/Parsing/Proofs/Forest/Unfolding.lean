/-
# How a forest unfolds

Unpacking is told as a relation: from the choices made so far and the nodes that wait,
some further choices finish a tree (`Unfolds`). The next node either has no choice
left, and then it is passed over, or any one of those left is made, and then its
children wait in the node's place.

Unpacking finds each way to finish a partial tree, and none twice
(`Forest.mem_completions_iff`, `Forest.nodup_completions`); taking trees one by one
gives them in the same order (`Forest.take_eq`). A node gets a choice each time it is
entered until it has none left, so choices and entrances of a node are counted
together (`Unfolds.count_node`).

Key definitions: `Choice.children`, `Unfolds`.
Key theorems: `Forest.mem_completions_iff`, `Forest.nodup_completions`, `Forest.take_eq`,
`Unfolds.count_node`.
-/
import Mathlib.Data.List.Nodup
import Mathlib.Data.List.Perm.Subperm
import Parsing.Forest.Unpack

namespace Parsing

/-- The children, in the order in which they are to be expanded. -/
def Choice.children (c : Choice) : List NodeId := c.family.right :: c.family.left?.toList

theorem Choice.children_of_none {c : Choice} (h : c.family.left? = none) :
    c.children = [c.family.right] := by
  rw [children, h, Option.toList_none]

theorem Choice.children_of_some {c : Choice} {left : NodeId} (h : c.family.left? = some left) :
    c.children = [c.family.right, left] := by
  rw [children, h, Option.toList_some]

/-- From the choices `applied` and the nodes that wait, some further choices finish a tree. -/
inductive Unfolds (f : Forest) : List Choice → List NodeId → List Choice → Prop
  | done {applied : List Choice} : Unfolds f applied [] []
  | skip {applied l : List Choice} {id : NodeId} {rest : List NodeId}
      (h : ∀ c ∈ f.choicesAt id, c ∈ applied) (hl : Unfolds f applied rest l) :
      Unfolds f applied (id :: rest) l
  | pick {applied l : List Choice} {id : NodeId} {rest : List NodeId} {c : Choice}
      (hc : c ∈ f.choicesAt id) (hnew : c ∉ applied)
      (hl : Unfolds f (c :: applied) (c.children ++ rest) l) :
      Unfolds f applied (id :: rest) (c :: l)

namespace Forest

variable {f : Forest} {t t' : PartialTree} {id : NodeId} {c : Choice} {n : Node}

/-! ### Choices -/

theorem mem_choicesAt : c ∈ f.choicesAt id ↔
    c.node = id ∧ ∃ n, f.nodes[id]? = some n ∧ n.families[c.index]? = some c.family := by
  unfold choicesAt
  obtain ⟨node, index, family⟩ := c
  cases f.nodes[id]? with
  | none => simp
  | some n =>
    simp only [List.mem_map, Choice.mk.injEq, Option.some.injEq, exists_eq_left', Prod.exists]
    constructor
    · rintro ⟨fam, i, hmem, rfl, rfl, rfl⟩
      exact ⟨rfl, List.mem_zipIdx_iff_getElem?.mp hmem⟩
    · rintro ⟨rfl, hfam⟩
      exact ⟨family, index, List.mem_zipIdx_iff_getElem?.mpr hfam, rfl, rfl, rfl⟩

theorem node_of_mem_choicesAt (h : c ∈ f.choicesAt id) : c.node = id := (mem_choicesAt.mp h).1

theorem length_choicesAt (h : f.nodes[id]? = some n) :
    (f.choicesAt id).length = n.families.length := by
  simp [choicesAt, h]

theorem nodup_choicesAt (f : Forest) (id : NodeId) : (f.choicesAt id).Nodup := by
  unfold choicesAt
  cases f.nodes[id]? with
  | none => exact List.nodup_nil
  | some n =>
    have hindex : ((n.families.zipIdx.map fun p => (⟨id, p.2, p.1⟩ : Choice)).map
        Choice.index).Nodup := by
      rw [List.map_map]
      change (n.families.zipIdx.map Prod.snd).Nodup
      rw [List.zipIdx_map_snd]
      exact List.nodup_range'
    exact List.Nodup.of_map _ hindex

theorem filter_choicesAt {applied : List Choice} (h : ∀ c ∈ applied, c.node ≠ id) :
    ((f.choicesAt id).filter fun c => c ∉ applied) = f.choicesAt id := by
  refine List.filter_eq_self.mpr fun c hc => decide_eq_true fun happlied => ?_
  exact h c happlied (node_of_mem_choicesAt hc)

/-! ### Finished trees -/

theorem expand_of_closed {applied : List Choice} {rest : List NodeId}
    (h : ∀ c ∈ f.choicesAt id, c ∈ applied) :
    f.expand ⟨applied, id :: rest⟩ = some (⟨applied, rest⟩, []) := by
  have hopen : ((f.choicesAt id).filter fun c => c ∉ applied) = [] :=
    List.filter_eq_nil_iff.mpr fun c hc => by simpa using h c hc
  simp only [expand, hopen]

theorem expand_of_open {applied : List Choice} {rest : List NodeId} {others : List Choice}
    (h : ((f.choicesAt id).filter fun c => c ∉ applied) = c :: others) :
    f.expand ⟨applied, id :: rest⟩ =
      some ((⟨applied, rest⟩ : PartialTree).apply c,
        others.map (⟨applied, rest⟩ : PartialTree).apply) := by
  simp only [expand, h]

theorem choice_of_open {applied : List Choice} {others : List Choice}
    (h : ((f.choicesAt id).filter fun c => c ∉ applied) = c :: others) :
    c ∈ f.choicesAt id ∧ c ∉ applied := by
  have hmem : c ∈ (f.choicesAt id).filter fun c => c ∉ applied := h ▸ List.mem_cons_self
  simpa using hmem

theorem completions_nil (applied : List Choice) :
    f.completions ⟨applied, []⟩ = [⟨applied, []⟩] := by
  rw [completions]
  rfl

theorem completions_of_expand {forks : List PartialTree} (h : f.expand t = some (t', forks)) :
    f.completions t = f.completions t' ++ forks.reverse.flatMap f.completions := by
  rw [completions]
  split
  · next hnone =>
    rw [h] at hnone
    cases hnone
  · next u us hsome =>
    rw [h] at hsome
    cases hsome
    rw [List.flatMap_subtype (g := f.completions) (fun _ _ => rfl), List.unattach_attach]

theorem completions_of_closed {applied : List Choice} {rest : List NodeId}
    (h : ∀ c ∈ f.choicesAt id, c ∈ applied) :
    f.completions ⟨applied, id :: rest⟩ = f.completions ⟨applied, rest⟩ := by
  rw [completions_of_expand (expand_of_closed h)]
  simp

theorem completions_of_open {applied : List Choice} {rest : List NodeId} {others : List Choice}
    (h : ((f.choicesAt id).filter fun c => c ∉ applied) = c :: others) :
    f.completions ⟨applied, id :: rest⟩ = (c :: others.reverse).flatMap fun d =>
      f.completions ⟨d :: applied, d.children ++ rest⟩ := by
  rw [completions_of_expand (expand_of_open h), List.flatMap_cons, ← List.map_reverse,
    List.flatMap_map]
  rfl

/-- Partial trees by what steps use up: nothing waits, or the next node has no choice left, or
each of its choices left leads to a lighter partial tree. -/
theorem unpack_induction {P : PartialTree → Prop} (done : ∀ applied, P ⟨applied, []⟩)
    (skip : ∀ applied id rest, (∀ c ∈ f.choicesAt id, c ∈ applied) → P ⟨applied, rest⟩ →
      P ⟨applied, id :: rest⟩)
    (pick : ∀ applied id rest c others,
      ((f.choicesAt id).filter fun c => c ∉ applied) = c :: others →
      (∀ d ∈ c :: others, P ⟨d :: applied, d.children ++ rest⟩) → P ⟨applied, id :: rest⟩)
    (t : PartialTree) : P t := by
  induction hw : f.weight t using Nat.strongRecOn generalizing t with
  | _ w ih =>
    obtain ⟨applied, pending⟩ := t
    cases pending with
    | nil => exact done applied
    | cons id rest =>
      cases hopen : (f.choicesAt id).filter fun c => c ∉ applied with
      | nil =>
        have hclosed : ∀ c ∈ f.choicesAt id, c ∈ applied := fun c hc => by
          simpa using List.filter_eq_nil_iff.mp hopen c hc
        have hexpand : f.expand ⟨applied, id :: rest⟩ = some (⟨applied, rest⟩, []) :=
          expand_of_closed hclosed
        have hlt := (weight_expand hexpand).1
        exact skip applied id rest hclosed (ih _ (hw ▸ hlt) _ rfl)
      | cons c others =>
        have hlt : f.weight ⟨c :: applied, c.children ++ rest⟩ < f.weight ⟨applied, id :: rest⟩ ∧
            ∀ u ∈ others.map (⟨applied, rest⟩ : PartialTree).apply,
              f.weight u < f.weight ⟨applied, id :: rest⟩ := weight_expand (expand_of_open hopen)
        refine pick applied id rest c others hopen fun d hd => ?_
        have hd : f.weight ⟨d :: applied, d.children ++ rest⟩ < w := by
          rw [← hw]
          rcases List.mem_cons.mp hd with rfl | hd
          · exact hlt.1
          · exact hlt.2 _ (List.mem_map_of_mem hd)
        exact ih _ hd _ rfl

/-- **Unpacking finds each way to finish a partial tree.** -/
theorem mem_completions_iff : t' ∈ f.completions t ↔
    ∃ l, Unfolds f t.applied t.pending l ∧ t' = ⟨l.reverse ++ t.applied, []⟩ := by
  induction t using unpack_induction (f := f) with
  | done applied =>
    rw [completions_nil, List.mem_singleton]
    constructor
    · rintro rfl
      exact ⟨[], .done, rfl⟩
    · rintro ⟨l, hl, rfl⟩
      cases hl
      rfl
  | skip applied id rest hclosed ih =>
    rw [completions_of_closed hclosed, ih]
    constructor
    · rintro ⟨l, hl, rfl⟩
      exact ⟨l, .skip hclosed hl, rfl⟩
    · rintro ⟨l, hl, rfl⟩
      cases hl with
      | skip _ hl => exact ⟨l, hl, rfl⟩
      | pick hc hnew _ => exact absurd (hclosed _ hc) hnew
  | pick applied id rest c others hopen ih =>
    have hmem : ∀ d, d ∈ c :: others ↔ d ∈ f.choicesAt id ∧ d ∉ applied := by
      intro d
      rw [← hopen, List.mem_filter]
      simp
    rw [completions_of_open hopen, List.mem_flatMap]
    constructor
    · rintro ⟨d, hd, hmemd⟩
      have hd : d ∈ c :: others := by simpa using hd
      obtain ⟨l, hl, rfl⟩ := (ih d hd).mp hmemd
      obtain ⟨hc, hnew⟩ := (hmem d).mp hd
      exact ⟨d :: l, .pick hc hnew hl, by simp⟩
    · rintro ⟨l, hl, rfl⟩
      cases hl with
      | skip hclosed _ =>
        obtain ⟨hc, hnew⟩ := (hmem c).mp List.mem_cons_self
        exact absurd (hclosed c hc) hnew
      | @pick _ l _ _ d hc hnew hl =>
        have hd := (hmem d).mpr ⟨hc, hnew⟩
        exact ⟨d, by simpa using hd, (ih d hd).mpr ⟨l, hl, by simp⟩⟩

/-- **Unpacking finds no tree twice**, for trees that part at a node keep their choices there. -/
theorem nodup_completions (f : Forest) (t : PartialTree) : (f.completions t).Nodup := by
  induction t using unpack_induction (f := f) with
  | done applied =>
    rw [completions_nil]
    exact List.nodup_singleton _
  | skip applied id rest hclosed ih =>
    rw [completions_of_closed hclosed]
    exact ih
  | pick applied id rest c others hopen ih =>
    rw [completions_of_open hopen, List.nodup_flatMap]
    refine ⟨fun d hd => ih d (by simpa using hd), ?_⟩
    have hnodup : (c :: others.reverse).Nodup := by
      have h := (nodup_choicesAt f id).filter fun c => c ∉ applied
      rw [hopen] at h
      exact (List.Perm.cons c others.reverse_perm).nodup_iff.mpr h
    refine hnodup.imp fun {a b} hab => ?_
    intro u hua hub
    obtain ⟨l, -, rfl⟩ := mem_completions_iff.mp hua
    obtain ⟨l', -, heq⟩ := mem_completions_iff.mp hub
    have happ : (l.reverse ++ [a]) ++ applied = (l'.reverse ++ [b]) ++ applied := by
      simpa using congrArg PartialTree.applied heq
    have hlast := List.append_inj_right' (List.append_cancel_right happ) rfl
    exact hab (List.singleton_inj.mp hlast)

/-! ### Trees one by one -/

theorem finish_of_done {work : List PartialTree} (h : f.expand t = none) :
    f.finish t work = (t, work) := by
  rw [finish]
  split
  · rfl
  · next hsome =>
    rw [h] at hsome
    cases hsome

theorem finish_of_expand {work forks : List PartialTree} (h : f.expand t = some (t', forks)) :
    f.finish t work = f.finish t' (forks.reverse ++ work) := by
  rw [finish]
  split
  · next hnone =>
    rw [h] at hnone
    cases hnone
  · next hsome =>
    rw [h] at hsome
    cases hsome
    rfl

/-- The next finished tree is the first of those that are left. -/
theorem finish_cons (t : PartialTree) (work : List PartialTree) :
    (f.finish t work).1 :: (f.finish t work).2.flatMap f.completions =
      f.completions t ++ work.flatMap f.completions := by
  induction t, work using finish.induct f with
  | case1 t work h =>
    obtain ⟨applied, pending⟩ := t
    cases pending with
    | nil =>
      rw [finish_of_done h, completions_nil]
      rfl
    | cons id rest =>
      unfold expand at h
      split at h
      · next heq => cases heq
      · split at h <;> cases h
  | case2 t work t' forks h ih =>
    rw [finish_of_expand h, ih, completions_of_expand h, List.flatMap_append, List.append_assoc]

/-- **Taking trees one by one** gives those that are left, in order. -/
theorem take_eq (f : Forest) : ∀ (n : Nat) (work : List PartialTree),
    (f.take n work).1 = (work.flatMap f.completions).take n
  | 0, _ => rfl
  | n + 1, [] => by simp [take, next?]
  | n + 1, t :: work => by
    have hstep : (f.take (n + 1) (t :: work)).1 =
        (f.finish t work).1 :: (f.take n (f.finish t work).2).1 := rfl
    rw [hstep, take_eq f n, List.flatMap_cons, ← finish_cons, List.take_succ_cons]

theorem take_ofRoot (f : Forest) (n : Nat) (root : NodeId) :
    (f.take n [.ofRoot root]).1 = (f.trees root).take n := by
  rw [take_eq, List.flatMap_singleton]
  rfl

theorem mem_trees_iff {root : NodeId} :
    t ∈ f.trees root ↔ ∃ l, Unfolds f [] [root] l ∧ t = ⟨l.reverse, []⟩ := by
  unfold trees PartialTree.ofRoot
  rw [mem_completions_iff]
  simp

end Forest

/-! ### What is entered -/

namespace Unfolds

variable {f : Forest} {applied l : List Choice} {pending : List NodeId}

/-- **A node gets a choice each time it is entered until it has none left.** -/
theorem count_node (h : Unfolds f applied pending l) (id : NodeId) (happ : applied.Nodup)
    (hmem : ∀ c ∈ applied, c ∈ f.choicesAt c.node) :
    l.countP (·.node = id) + applied.countP (·.node = id) =
      min ((pending ++ l.flatMap Choice.children).count id + applied.countP (·.node = id))
        (f.choicesAt id).length := by
  induction h with
  | @done applied =>
    have hsub : applied.filter (·.node = id) ⊆ f.choicesAt id := by
      intro c hc
      obtain ⟨hc, hid⟩ := List.mem_filter.mp hc
      have hid : c.node = id := by simpa using hid
      exact hid ▸ hmem c hc
    have hle := (List.subperm_of_subset (happ.filter _) hsub).length_le
    rw [← List.countP_eq_length_filter] at hle
    simp only [List.countP_nil, List.flatMap_nil, List.append_nil, List.count_nil]
    omega
  | @skip applied l id' rest hclosed hl ih =>
    have ih := ih happ hmem
    rw [List.cons_append, List.count_cons]
    by_cases hid : id' = id
    · subst hid
      have hsub : f.choicesAt id' ⊆ applied.filter (·.node = id') := fun c hc =>
        List.mem_filter.mpr ⟨hclosed c hc, by simpa using Forest.node_of_mem_choicesAt hc⟩
      have hle := (List.subperm_of_subset (Forest.nodup_choicesAt f id') hsub).length_le
      rw [← List.countP_eq_length_filter] at hle
      simp only [beq_self_eq_true, if_true]
      omega
    · simpa [hid] using ih
  | @pick applied l id' rest c hc hnew hl ih =>
    have hnode := Forest.node_of_mem_choicesAt hc
    have ih := ih (List.nodup_cons.mpr ⟨hnew, happ⟩) (by
      intro d hd
      rcases List.mem_cons.mp hd with rfl | hd
      · rwa [hnode]
      · exact hmem d hd)
    rw [List.flatMap_cons, List.cons_append, List.count_cons]
    simp only [List.countP_cons, List.count_append, hnode, decide_eq_true_eq, beq_iff_eq] at ih ⊢
    by_cases hid : id' = id
    · simp only [hid, if_true] at ih ⊢
      omega
    · simp only [hid, if_false] at ih ⊢
      omega

end Unfolds

end Parsing
