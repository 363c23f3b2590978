/-
# First choices

The tree that unpacking finishes first makes, at each node that it enters, the first choice
not made yet (`Leads`). Where the children of a node's first family were created before the
node, or cover nothing, the nodes that this tree enters along a position were created earlier
and earlier (`Leads.descending`), so that none of them is entered twice.

Key definitions: `Leads`, `Forest.Descends`, `Forest.Descending`.
Key theorems: `Forest.exists_leads`, `Leads.next?`, `Leads.descending`.
-/
import Parsing.Proofs.Forest.Covering

namespace Parsing

/-- From the choices `applied` and the nodes that wait, always making the first choice that is
left makes some further choices and finishes a tree. -/
inductive Leads (f : Forest) : List Choice → List NodeId → List Choice → Prop
  | done {applied : List Choice} : Leads f applied [] []
  | skip {applied l : List Choice} {id : NodeId} {rest : List NodeId}
      (h : ∀ c ∈ f.choicesAt id, c ∈ applied) (hl : Leads f applied rest l) :
      Leads f applied (id :: rest) l
  | pick {applied l : List Choice} {id : NodeId} {rest : List NodeId} {c : Choice}
      {others : List Choice} (hopen : ((f.choicesAt id).filter fun c => c ∉ applied) = c :: others)
      (hl : Leads f (c :: applied) (c.children ++ rest) l) :
      Leads f applied (id :: rest) (c :: l)

namespace Forest

variable {f : Forest} {p : Nat} {id : NodeId}

/-- Whether what covers the position below the first choice at the node was created before the
node. -/
def Descends (f : Forest) (p : Nat) (id : NodeId) : Prop :=
  ∀ c others, f.choicesAt id = c :: others → ∀ y ∈ c.children, f.covers p y = true → y < id

/-- What unpacking keeps along a position while it makes first choices: all nodes below those that
wait descend, one of these at most covers the position, and it was created before the nodes
with choices made that cover it. -/
structure Descending (f : Forest) (p : Nat) (applied : List Choice) (pending : List NodeId) :
    Prop where
  below : ∀ y ∈ pending, ∀ x, Relation.ReflTransGen f.Child y x → f.Descends p x
  one : pending.countP (f.covers p) ≤ 1
  lower : ∀ c ∈ applied, f.covers p c.node = true → ∀ y ∈ pending, f.covers p y = true → y < c.node

theorem head?_families {n : Node} {c : Choice} {others : List Choice}
    (hn : f.nodes[id]? = some n) (h : f.choicesAt id = c :: others) :
    n.families.head? = some c.family := by
  simp only [choicesAt, hn] at h
  cases hfams : n.families with
  | nil => simp [hfams] at h
  | cons fam fams =>
    rw [hfams, List.zipIdx_cons, List.map_cons] at h
    rw [← (List.cons.inj h).1]
    rfl

theorem exists_leads (t : PartialTree) : ∃ l, Leads f t.applied t.pending l := by
  induction t using unpack_induction (f := f) with
  | done applied => exact ⟨[], .done⟩
  | skip applied id rest hclosed ih =>
    obtain ⟨l, hl⟩ := ih
    exact ⟨l, .skip hclosed hl⟩
  | pick applied id rest c others hopen ih =>
    obtain ⟨l, hl⟩ := ih c List.mem_cons_self
    exact ⟨c :: l, .pick hopen hl⟩

variable {applied : List Choice} {rest : List NodeId} {c : Choice} {others : List Choice}

namespace Descending

theorem skip (h : f.Descending p applied (id :: rest)) : f.Descending p applied rest where
  below y hy := h.below y (List.mem_cons_of_mem _ hy)
  one := Nat.le_trans ((List.sublist_cons_self id rest).countP_le) h.one
  lower c hc hcov y hy := h.lower c hc hcov y (List.mem_cons_of_mem _ hy)

/-- Behind a node that covers the position nothing does. -/
theorem not_covers (h : f.Descending p applied (id :: rest)) (hid : f.covers p id = true) :
    ∀ y ∈ rest, ¬ f.covers p y = true := by
  have hone := h.one
  rw [List.countP_cons_of_pos hid] at hone
  exact List.countP_eq_zero.mp (by omega)

/-- What waits after a first choice at a node that covers the position was created before the
node. -/
theorem lt (h : f.Descending p applied (id :: rest)) (hid : f.covers p id = true)
    (hopen : ((f.choicesAt id).filter fun c => c ∉ applied) = c :: others) :
    ∀ y ∈ c.children ++ rest, f.covers p y = true → y < id := by
  -- the trail comes to the node for the first time, so all its choices are left
  have hall : f.choicesAt id = c :: others := by
    rw [← hopen, filter_choicesAt]
    rintro d hd rfl
    exact Nat.lt_irrefl _ (h.lower d hd hid d.node List.mem_cons_self hid)
  intro y hy hcov
  rcases List.mem_append.mp hy with hy | hy
  · exact h.below id List.mem_cons_self id .refl c others hall y hy hcov
  · exact absurd hcov (h.not_covers hid y hy)

theorem pick (hf : f.Valid) (h : f.Descending p applied (id :: rest))
    (hopen : ((f.choicesAt id).filter fun c => c ∉ applied) = c :: others) :
    f.Descending p (c :: applied) (c.children ++ rest) := by
  have hc := (choice_of_open hopen).1
  have hnode := node_of_mem_choicesAt hc
  refine ⟨below_children hc h.below, hf.countP_children_append hc rest ▸ h.one, ?_⟩
  intro d hd hcov y hy hycov
  by_cases hid : f.covers p id = true
  · have hyid := h.lt hid hopen y hy hycov
    rcases List.mem_cons.mp hd with rfl | hd
    · exact hnode ▸ hyid
    · exact Nat.lt_trans hyid (h.lower d hd hcov id List.mem_cons_self hid)
  · -- no child covers the position either
    have hnone := hf.countP_children (p := p) hc
    rw [if_neg hid] at hnone
    have hyrest : y ∈ rest := (List.mem_append.mp hy).resolve_left fun hy =>
      List.countP_eq_zero.mp hnone y hy hycov
    rcases List.mem_cons.mp hd with rfl | hd
    · exact absurd (hnode ▸ hcov) hid
    · exact h.lower d hd hcov y (List.mem_cons_of_mem _ hyrest) hycov

end Descending

end Forest

namespace Leads

variable {f : Forest} {applied l : List Choice} {pending : List NodeId} {p : Nat}

theorem unfolds (h : Leads f applied pending l) : Unfolds f applied pending l := by
  induction h with
  | done => exact .done
  | skip hclosed _ ih => exact .skip hclosed ih
  | @pick applied l id rest c others hopen _ ih =>
    obtain ⟨hc, hnew⟩ := Forest.choice_of_open hopen
    exact .pick hc hnew ih

theorem head_completions (h : Leads f applied pending l) :
    ∃ more, f.completions ⟨applied, pending⟩ = ⟨l.reverse ++ applied, []⟩ :: more := by
  induction h with
  | done => exact ⟨[], Forest.completions_nil _⟩
  | skip hclosed _ ih =>
    rw [Forest.completions_of_closed hclosed]
    exact ih
  | @pick applied l id rest c others hopen _ ih =>
    obtain ⟨more, hmore⟩ := ih
    rw [Forest.completions_of_open hopen, List.flatMap_cons, hmore]
    exact ⟨_, by rw [List.cons_append, List.reverse_cons, List.append_assoc]; rfl⟩

/-- **The tree of first choices comes first.** -/
theorem next? {root : NodeId} (h : Leads f [] [root] l) :
    ∃ rest, f.next? [.ofRoot root] = some (⟨l.reverse, []⟩, rest) := by
  refine ⟨(f.finish (.ofRoot root) []).2, ?_⟩
  obtain ⟨more, hmore⟩ := h.head_completions
  have hfirst := Forest.finish_cons (f := f) (.ofRoot root) []
  rw [List.flatMap_nil, List.append_nil, PartialTree.ofRoot, hmore, List.append_nil] at hfirst
  have hhead : (f.finish ⟨[], [root]⟩ []).1 = ⟨l.reverse, []⟩ := (List.cons.inj hfirst).1
  show some (f.finish ⟨[], [root]⟩ []) = some (⟨l.reverse, []⟩, (f.finish ⟨[], [root]⟩ []).2)
  rw [← hhead]

/-- **First choices descend along a position**: of the nodes entered there, which cover it, each
was created before the one that is entered before it. -/
theorem descending (hf : f.Valid) (h : Leads f applied pending l)
    (hd : f.Descending p applied pending) :
    ((pending ++ l.flatMap Choice.children).filter (f.covers p)).Pairwise (· > ·) := by
  induction h with
  | done => simp
  | @skip applied l id rest _ hl ih =>
    rw [List.cons_append]
    by_cases hid : f.covers p id = true
    · -- nothing that waits covers the position any more
      have hnone : (rest ++ l.flatMap Choice.children).filter (f.covers p) = [] := by
        refine List.filter_eq_nil_iff.mpr fun z hz hcov => ?_
        rcases List.mem_append.mp hz with hz | hz
        · exact hd.not_covers hid z hz hcov
        · obtain ⟨y, hy, hycov, -⟩ := hl.unfolds.walks.exists_above hf hcov hz
          exact hd.not_covers hid y hy hycov
      rw [List.filter_cons_of_pos hid, hnone]
      exact List.pairwise_singleton _ _
    · rw [List.filter_cons_of_neg hid]
      exact ih hd.skip
  | @pick applied l id rest c others hopen hl ih =>
    have hc := (Forest.choice_of_open hopen).1
    have hchildren := hf.countP_children (p := p) hc
    have ih := ih (hd.pick hf hopen)
    rw [List.cons_append, List.flatMap_cons]
    by_cases hid : f.covers p id = true
    · have hrest : rest.filter (f.covers p) = [] :=
        List.filter_eq_nil_iff.mpr (hd.not_covers hid)
      obtain ⟨y, hy⟩ : ∃ y, c.children.filter (f.covers p) = [y] := by
        rw [← List.length_eq_one_iff, ← List.countP_eq_length_filter, hchildren, if_pos hid]
      have hyid : y < id := by
        have hmem : y ∈ c.children.filter (f.covers p) := hy ▸ List.mem_singleton_self y
        obtain ⟨hmem, hcov⟩ := List.mem_filter.mp hmem
        exact hd.lt hid hopen y (List.mem_append_left rest hmem) hcov
      rw [List.filter_cons_of_pos hid]
      simp only [List.filter_append, hrest, hy, List.append_nil, List.nil_append,
        List.singleton_append] at ih ⊢
      refine List.pairwise_cons.mpr ⟨fun z hz => ?_, ih⟩
      rcases List.mem_cons.mp hz with rfl | hz
      · exact hyid
      · exact Nat.lt_trans ((List.pairwise_cons.mp ih).1 z hz) hyid
    · have hnone : c.children.filter (f.covers p) = [] := by
        rw [← List.length_eq_zero_iff, ← List.countP_eq_length_filter, hchildren, if_neg hid]
      rw [List.filter_cons_of_neg hid]
      simpa only [List.filter_append, hnone, List.nil_append] using ih

end Leads

end Parsing
