/-
# Trees spelled by choices

A tree of keys has no child, one or two at each node. Choices spell such a tree when
they are the families of its nodes, in the order in which unpacking makes them: the
choice at a node, then those below its right child, then those below its left child.

Where no walk down the forest enters a node twice, unpacking keeps no choice from a
node and skips none, so what it finds are the trees spelled under the root
(`unfolds_iff_spells`). In a valid forest a tree is spelled in one way only
(`Spells.unique`), and its edges are those of the choices (`Spells.edges`).

Key definitions: `Bin`, `Bin.edges`, `Spells`.
Key theorems: `Walks.nodup_entered`, `unfolds_iff_spells`, `Spells.unique`,
`Spells.edges`.
-/
import Parsing.Proofs.Forest.Covering

namespace Parsing

/-- A tree of keys, with up to two children at each node. -/
inductive Bin
  | leaf (key : NodeKey)
  | one (key : NodeKey) (child : Bin)
  | two (key : NodeKey) (left right : Bin)

namespace Bin

/-- The key at the root. -/
def key : Bin → NodeKey
  | leaf k => k
  | one k _ => k
  | two k _ _ => k

/-- The edges, in the order in which unpacking finds them. -/
def edges : Bin → List (NodeKey × NodeKey)
  | leaf _ => []
  | one k b => (k, b.key) :: b.edges
  | two k left right => (k, left.key) :: (k, right.key) :: (right.edges ++ left.edges)

end Bin

/-- The choices spell the tree at the node. -/
inductive Spells (f : Forest) : Bin → NodeId → List Choice → Prop
  | leaf {id : NodeId} {key : NodeKey} (hid : f.key? id = some key)
      (hnone : f.choicesAt id = []) : Spells f (.leaf key) id []
  | one {id : NodeId} {key : NodeKey} {c : Choice} {b : Bin} {l : List Choice}
      (hid : f.key? id = some key) (hc : c ∈ f.choicesAt id) (hleft : c.family.left? = none)
      (hb : Spells f b c.family.right l) : Spells f (.one key b) id (c :: l)
  | two {id a : NodeId} {key : NodeKey} {c : Choice} {left right : Bin} {l l' : List Choice}
      (hid : f.key? id = some key) (hc : c ∈ f.choicesAt id) (ha : c.family.left? = some a)
      (hright : Spells f right c.family.right l) (hleft : Spells f left a l') :
      Spells f (.two key left right) id (c :: (l ++ l'))

/-- The choices spell trees at all the nodes, one after the other. -/
inductive SpellsAll (f : Forest) : List Bin → List NodeId → List Choice → Prop
  | nil : SpellsAll f [] [] []
  | cons {b : Bin} {bs : List Bin} {id : NodeId} {rest : List NodeId} {l l' : List Choice}
      (h : Spells f b id l) (hs : SpellsAll f bs rest l') :
      SpellsAll f (b :: bs) (id :: rest) (l ++ l')

/-! ### Walks that enter no node twice -/

namespace Walks

variable {f : Forest} {l : List Choice} {pending : List NodeId} {root id : NodeId}

/-- A choice at a node takes an entrance of it. -/
theorem count_le (h : Walks f pending l) (id : NodeId) :
    (l.map Choice.node).count id ≤ (pending ++ l.flatMap Choice.children).count id := by
  induction h with
  | done => simp
  | @skip l id' rest _ ih =>
    have hcount : ((id' :: rest) ++ l.flatMap Choice.children).count id =
        (rest ++ l.flatMap Choice.children).count id + if id' = id then 1 else 0 := by
      simp [List.count_cons]
    omega
  | @pick l id' rest c hc _ ih =>
    have hnode := Forest.node_of_mem_choicesAt hc
    rw [List.map_cons, List.flatMap_cons, hnode, List.cons_append, List.count_cons,
      List.count_cons]
    simp only [List.count_append] at ih ⊢
    omega

theorem descends (h : Walks f [root] l) (hid : id ∈ root :: l.flatMap Choice.children) :
    Relation.ReflTransGen f.Child root id := by
  have hchild : ∀ {a b : NodeId}, (∃ d ∈ l, d.node = a ∧ b ∈ d.children) → f.Child a b := by
    rintro a b ⟨d, hd, rfl, hb⟩
    exact ⟨d, h.mem_choicesAt hd, hb⟩
  rcases List.mem_cons.mp hid with rfl | hid
  · exact .refl
  · obtain ⟨c, hc, hmem⟩ := List.mem_flatMap.mp hid
    obtain ⟨y, hy, hpath⟩ := h.exists_path hc
    rw [List.mem_singleton.mp hy] at hpath
    have hpath : Relation.ReflTransGen f.Child root c.node :=
      Relation.ReflTransGen.mono (fun a b hab => hchild hab) _ _ hpath
    exact hpath.tail ⟨c, h.mem_choicesAt hc, hmem⟩

/-- **No node is entered twice** where nodes are wide and none lies below itself. -/
theorem nodup_entered (hf : f.Valid)
    (hwide : ∀ x, Relation.ReflTransGen f.Child root x → ∃ p, f.covers p x = true)
    (hacyc : ∀ x, Relation.ReflTransGen f.Child root x → ¬ Relation.TransGen f.Child x x)
    (h : Walks f [root] l) : (root :: l.flatMap Choice.children).Nodup := by
  refine List.nodup_iff_count_le_one.mpr fun id => ?_
  by_cases hid : id ∈ root :: l.flatMap Choice.children
  · obtain ⟨p, hp⟩ := hwide id (h.descends hid)
    have hnodup := h.nodup_covering (p := p) hf
      (fun y hy x hx => by
        rw [List.mem_singleton.mp hy] at hx
        exact hacyc x hx)
      (Nat.le_trans List.countP_le_length (by simp))
    rw [List.singleton_append] at hnodup
    have hle := List.nodup_iff_count_le_one.mp hnodup id
    rwa [List.count_filter hp] at hle
  · rw [List.count_eq_zero.mpr hid]
    exact Nat.zero_le 1

end Walks

/-! ### Spelling and unpacking -/

namespace Spells

variable {f : Forest} {b : Bin} {id : NodeId} {l l' : List Choice}

theorem key?_eq (h : Spells f b id l) : f.key? id = some b.key := by
  cases h <;> assumption

theorem walks {rest : List NodeId} (h : Spells f b id l) (hrest : Walks f rest l') :
    Walks f (id :: rest) (l ++ l') := by
  induction h generalizing rest l' with
  | leaf => exact .skip hrest
  | @one id key c b l _ hc hleft _ ih =>
    refine .pick hc ?_
    rw [Choice.children_of_none hleft]
    exact ih hrest
  | @two id a key c left right l ll _ hc ha _ _ ihr ihl =>
    rw [List.cons_append, List.append_assoc]
    refine .pick hc ?_
    rw [Choice.children_of_some ha]
    exact ihr (ihl hrest)

/-- What is spelled with no choice made before, unpacking finds. -/
theorem unfolds {applied : List Choice} {rest : List NodeId} (h : Spells f b id l)
    (hnodup : l.Nodup) (hnew : ∀ c ∈ l, c ∉ applied)
    (hrest : Unfolds f (l.reverse ++ applied) rest l') :
    Unfolds f applied (id :: rest) (l ++ l') := by
  induction h generalizing applied rest l' with
  | leaf _ hnone => exact .skip (by simp [hnone]) hrest
  | @one id key c b l _ hc hleft _ ih =>
    obtain ⟨hcl, hl⟩ := List.nodup_cons.mp hnodup
    refine .pick hc (hnew c List.mem_cons_self) ?_
    rw [Choice.children_of_none hleft]
    refine ih hl (fun d hd => ?_) (by simpa using hrest)
    rw [List.mem_cons, not_or]
    exact ⟨fun e => hcl (e ▸ hd), hnew d (List.mem_cons_of_mem _ hd)⟩
  | @two id a key c left right l ll _ hc ha _ _ ihr ihl =>
    obtain ⟨hcl, hl⟩ := List.nodup_cons.mp hnodup
    obtain ⟨hr, hll, hdis⟩ := List.nodup_append.mp hl
    rw [List.cons_append, List.append_assoc]
    refine .pick hc (hnew c List.mem_cons_self) ?_
    rw [Choice.children_of_some ha]
    have hfresh : ∀ d ∈ l ++ ll, d ∉ c :: applied := by
      intro d hd
      rw [List.mem_cons, not_or]
      exact ⟨fun e => hcl (e ▸ hd), hnew d (List.mem_cons_of_mem _ hd)⟩
    refine ihr hr (fun d hd => hfresh d (List.mem_append_left _ hd)) ?_
    refine ihl hll (fun d hd => ?_) (by simpa using hrest)
    rw [List.mem_append, not_or, List.mem_reverse]
    exact ⟨fun hd' => hdis d hd' d hd rfl, hfresh d (List.mem_append_right _ hd)⟩

end Spells

theorem SpellsAll.pick {f : Forest} {id : NodeId} {key : NodeKey} {c : Choice} {bs : List Bin}
    {rest : List NodeId} {l : List Choice} (hk : f.key? id = some key) (hc : c ∈ f.choicesAt id)
    (h : SpellsAll f bs (c.children ++ rest) l) : ∃ bs', SpellsAll f bs' (id :: rest) (c :: l) := by
  cases hleft : c.family.left? with
  | none =>
    rw [Choice.children_of_none hleft] at h
    cases h with
    | cons hb hbs => exact ⟨_, .cons (.one hk hc hleft hb) hbs⟩
  | some a =>
    rw [Choice.children_of_some hleft] at h
    cases h with
    | cons hright hbs =>
      cases hbs with
      | cons hleftb hbs =>
        have hall := SpellsAll.cons (.two hk hc hleft hright hleftb) hbs
        rw [List.cons_append, List.append_assoc] at hall
        exact ⟨_, hall⟩

/-- **Unpacking without choices made before spells trees.** -/
theorem Unfolds.spellsAll {f : Forest} {applied l : List Choice} {pending : List NodeId}
    (hf : f.Valid) (h : Unfolds f applied pending l)
    (hkey : ∀ y ∈ pending, ∃ key, f.key? y = some key)
    (hnodup : (pending ++ l.flatMap Choice.children).Nodup)
    (happ : ∀ c ∈ applied, c.node ∉ pending ++ l.flatMap Choice.children) :
    ∃ bs, SpellsAll f bs pending l := by
  induction h with
  | done => exact ⟨[], .nil⟩
  | @skip applied l id rest hclosed _ ih =>
    obtain ⟨hid, hnodup⟩ := List.nodup_cons.mp hnodup
    -- a node without choices left has had none
    have hnone : f.choicesAt id = [] := by
      refine List.eq_nil_iff_forall_not_mem.mpr fun c hc => ?_
      refine happ c (hclosed c hc) ?_
      rw [Forest.node_of_mem_choicesAt hc]
      exact List.mem_cons_self
    obtain ⟨key, hk⟩ := hkey id List.mem_cons_self
    obtain ⟨bs, hbs⟩ := ih (fun y hy => hkey y (List.mem_cons_of_mem _ hy)) hnodup
      fun c hc hmem => happ c hc (List.mem_cons_of_mem _ hmem)
    exact ⟨.leaf key :: bs, .cons (.leaf hk hnone) hbs⟩
  | @pick applied l id rest c hc _ _ ih =>
    have hnode := Forest.node_of_mem_choicesAt hc
    obtain ⟨hid, hnodup⟩ := List.nodup_cons.mp hnodup
    have hperm := c.children_perm rest l
    obtain ⟨key, hk⟩ := hkey id List.mem_cons_self
    obtain ⟨-, -, -, left?, right, hnames, -⟩ := hf.choice hc
    have hkeys : ∀ y ∈ c.children ++ rest, ∃ key, f.key? y = some key := by
      intro y hy
      rcases List.mem_append.mp hy with hy | hy
      · obtain ⟨k, hk, -⟩ := hnames.child hy
        exact ⟨k, hk⟩
      · exact hkey y (List.mem_cons_of_mem _ hy)
    have happ' : ∀ d ∈ c :: applied,
        d.node ∉ (c.children ++ rest) ++ l.flatMap Choice.children := by
      intro d hd hmem
      have hmem := hperm.symm.subset hmem
      rcases List.mem_cons.mp hd with rfl | hd
      · rw [hnode] at hmem
        exact hid hmem
      · exact happ d hd (List.mem_cons_of_mem _ hmem)
    obtain ⟨bs, hbs⟩ := ih hkeys (hperm.nodup_iff.mp hnodup) happ'
    exact SpellsAll.pick hk hc hbs

/-- **What unpacking finds is what is spelled**, where no walk enters a node twice. -/
theorem unfolds_iff_spells {f : Forest} {root : NodeId} {l : List Choice} (hf : f.Valid)
    (hroot : ∃ key, f.key? root = some key)
    (hnodup : ∀ l, Walks f [root] l → (root :: l.flatMap Choice.children).Nodup) :
    Unfolds f [] [root] l ↔ ∃ b, Spells f b root l := by
  constructor
  · intro h
    obtain ⟨bs, hbs⟩ := h.spellsAll hf
      (fun y hy => by
        rw [List.mem_singleton.mp hy]
        exact hroot)
      (hnodup l h.walks) (by simp)
    cases hbs with
    | cons hb hnil =>
      cases hnil
      rw [List.append_nil]
      exact ⟨_, hb⟩
  · rintro ⟨b, hb⟩
    have hwalks : Walks f [root] l := by simpa using hb.walks .done
    have hone := List.nodup_iff_count_le_one.mp (hnodup l hwalks)
    have hnodes : (l.map Choice.node).Nodup :=
      List.nodup_iff_count_le_one.mpr fun id => Nat.le_trans (hwalks.count_le id) (hone id)
    have hdone : Unfolds f (l.reverse ++ []) [] [] := .done
    have := hb.unfolds (List.Nodup.of_map _ hnodes) (by simp) hdone
    rwa [List.append_nil] at this

namespace Spells

variable {f : Forest} {b : Bin} {id : NodeId} {l l' : List Choice}

/-- **A tree is spelled in one way only.** -/
theorem unique (hf : f.Valid) (h : Spells f b id l) (h' : Spells f b id l') : l = l' := by
  -- children of the same keys make one family, which has one place
  have hchoice : ∀ {id : NodeId} {c d : Choice} {left? : Option NodeKey} {right : NodeKey},
      c ∈ f.choicesAt id → d ∈ f.choicesAt id → f.Names c.family left? right →
        f.Names d.family left? right → c = d := by
    intro id c d left? right hc hd hnc hnd
    obtain ⟨hcnode, n, hn, hcfam⟩ := Forest.mem_choicesAt.mp hc
    obtain ⟨hdnode, m, hm, hdfam⟩ := Forest.mem_choicesAt.mp hd
    obtain rfl : n = m := Option.some.inj (hn.symm.trans hm)
    have hfam : c.family = d.family := hf.family_inj hnc hnd
    have hlt := (List.getElem?_eq_some_iff.mp hcfam).1
    have hindex : c.index = d.index :=
      (List.getElem?_inj hlt (hf.once n (List.mem_of_getElem? hn))).mp
        (hcfam.trans ((congrArg some hfam).trans hdfam.symm))
    obtain ⟨cn, ci, cf⟩ := c
    obtain ⟨dn, di, df⟩ := d
    simp_all
  induction h generalizing l' with
  | leaf => cases h'; rfl
  | @one id key c b l hid hc hleft hb ih =>
    cases h' with
    | @one _ _ d _ m hid' hd hleft' hb' =>
      obtain rfl := hchoice hc hd (Forest.names_none hleft hb.key?_eq)
        (Forest.names_none hleft' hb'.key?_eq)
      rw [ih hb']
  | @two id a key c left right l ll hid hc ha hright hleft ihr ihl =>
    cases h' with
    | @two _ a' _ d _ _ m mm hid' hd ha' hright' hleft' =>
      obtain rfl := hchoice hc hd (Forest.names_some ha hleft.key?_eq hright.key?_eq)
        (Forest.names_some ha' hleft'.key?_eq hright'.key?_eq)
      obtain rfl : a = a' := Option.some.inj (ha.symm.trans ha')
      rw [ihr hright', ihl hleft']

/-- **The edges of the choices are those of the tree.** -/
theorem edges (h : Spells f b id l) :
    (l.flatMap Choice.edges).map (Prod.map f.key? f.key?) = b.edges.map (Prod.map some some) := by
  induction h with
  | leaf => rfl
  | @one id key c b l hid hc hleft hb ih =>
    have hnode := Forest.node_of_mem_choicesAt hc
    simp [Choice.edges, Bin.edges, hleft, hnode, hid, hb.key?_eq, ih]
  | @two id a key c left right l ll hid hc ha hright hleft ihr ihl =>
    have hnode := Forest.node_of_mem_choicesAt hc
    simp [Choice.edges, Bin.edges, ha, hnode, hid, hright.key?_eq, hleft.key?_eq, ihr, ihl]

end Spells

end Parsing
