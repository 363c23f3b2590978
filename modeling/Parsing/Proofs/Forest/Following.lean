/-
# Derivations that follow trees

A derivation follows trees, one at each of the nodes that wait, when it makes the choices of
their roots, goes on with the parts below, and passes over a tree where the node has no
choice left (`Follows`). Each derivation follows some trees, and trees are followed by at
most one derivation (`Follows.unique`), so there are no more derivations than trees.

There may be fewer. A node that is entered again has lost the choices made there before: if
several trees can be spelled at it (`Forest.Several`), either none of its choices is left,
and then one derivation follows them all, or those with the lost choices at their roots are
not followed by any. So derivations and trees are one to one exactly when no derivation
enters a node with several trees twice (`Forest.matches_iff_apart`).

Key definitions: `Forest.Spelled`, `Forest.Several`, `Forest.Grounded`, `Follows`,
`Forest.Matches`, `Forest.Apart`.
Key theorems: `Follows.unique`, `Unfolds.exists_follows`, `Forest.matches_iff_apart`.
-/
import Mathlib.Data.List.Forall2
import Parsing.Proofs.Forest.Leading
import Parsing.Proofs.Forest.Spelling

namespace Parsing

/-- The trees below the root, in the order in which they are gone through. -/
def Bin.parts : Bin → List Bin
  | leaf _ => []
  | one _ b => [b]
  | two _ left right => [right, left]

namespace Forest

/-- Whether some choices spell the tree at the node. -/
def Spelled (f : Forest) (b : Bin) (id : NodeId) : Prop := ∃ l, Spells f b id l

/-- Whether two different trees are spelled at the node. -/
def Several (f : Forest) (id : NodeId) : Prop :=
  ∃ b b', f.Spelled b id ∧ f.Spelled b' id ∧ b ≠ b'

/-- Whether a tree is spelled at each node from this one on down. -/
def Grounded (f : Forest) (id : NodeId) : Prop :=
  ∀ x, Relation.ReflTransGen f.Child id x → ∃ b, f.Spelled b x

end Forest

/-- From the choices `applied`, further choices follow trees at the nodes that wait: at each
node the choice at the root of its tree, or none if none is left. -/
inductive Follows (f : Forest) : List Choice → List NodeId → List Bin → List Choice → Prop
  | done {applied : List Choice} : Follows f applied [] [] []
  | skip {applied l : List Choice} {id : NodeId} {rest : List NodeId} {b : Bin} {bs : List Bin}
      (h : ∀ c ∈ f.choicesAt id, c ∈ applied) (hb : f.Spelled b id)
      (hl : Follows f applied rest bs l) : Follows f applied (id :: rest) (b :: bs) l
  | pick {applied l l' : List Choice} {id : NodeId} {rest : List NodeId} {b : Bin} {bs : List Bin}
      {c : Choice} (hb : Spells f b id (c :: l')) (hnew : c ∉ applied)
      (hl : Follows f (c :: applied) (c.children ++ rest) (b.parts ++ bs) l) :
      Follows f applied (id :: rest) (b :: bs) (c :: l)

/-! ### Roots and parts -/

namespace Spells

variable {f : Forest} {b b' : Bin} {id : NodeId} {c c' : Choice} {l l' : List Choice}

theorem parts (h : Spells f b id (c :: l)) :
    c ∈ f.choicesAt id ∧ List.Forall₂ f.Spelled b.parts c.children := by
  cases h with
  | one hid hc hleft hb =>
    rw [Choice.children_of_none hleft]
    exact ⟨hc, .cons ⟨_, hb⟩ .nil⟩
  | two hid hc ha hright hleft =>
    rw [Choice.children_of_some ha]
    exact ⟨hc, .cons ⟨_, hright⟩ (.cons ⟨_, hleft⟩ .nil)⟩

/-- Trees at the children of a choice are the parts of a tree with the choice at its root. -/
theorem of_parts {key : NodeKey} {bs : List Bin} (hid : f.key? id = some key)
    (hc : c ∈ f.choicesAt id) (hbs : List.Forall₂ f.Spelled bs c.children) :
    ∃ b l, Spells f b id (c :: l) ∧ b.parts = bs := by
  cases hleft : c.family.left? with
  | none =>
    rw [Choice.children_of_none hleft] at hbs
    obtain ⟨b, _, ⟨l, hb⟩, hnil, rfl⟩ := List.forall₂_cons_right_iff.mp hbs
    cases hnil
    exact ⟨.one key b, l, .one hid hc hleft hb, rfl⟩
  | some a =>
    rw [Choice.children_of_some hleft] at hbs
    obtain ⟨right, _, ⟨l, hright⟩, htail, rfl⟩ := List.forall₂_cons_right_iff.mp hbs
    obtain ⟨left, _, ⟨l', hleftb⟩, hnil, rfl⟩ := List.forall₂_cons_right_iff.mp htail
    cases hnil
    exact ⟨.two key left right, l ++ l', .two hid hc hleft hright hleftb, rfl⟩

/-- Trees at the children of a choice and at further nodes are a tree with the choice at its root,
in parts, and trees at the further nodes. -/
theorem of_parts_append {key : NodeKey} {bs : List Bin} {rest : List NodeId}
    (hid : f.key? id = some key) (hc : c ∈ f.choicesAt id)
    (hbs : List.Forall₂ f.Spelled bs (c.children ++ rest)) :
    ∃ b l bs', Spells f b id (c :: l) ∧ bs = b.parts ++ bs' ∧ List.Forall₂ f.Spelled bs' rest := by
  obtain ⟨b, l, hb, hparts⟩ := of_parts hid hc (List.forall₂_take_append _ _ _ hbs)
  refine ⟨b, l, bs.drop c.children.length, hb, ?_, List.forall₂_drop_append _ _ _ hbs⟩
  rw [hparts, List.take_append_drop]

theorem eq_of_parts (h : Spells f b id (c :: l)) (h' : Spells f b' id (c :: l'))
    (hparts : b.parts = b'.parts) : b = b' := by
  have hkey := Option.some.inj (h.key?_eq.symm.trans h'.key?_eq)
  cases h with
  | one hid hc hleft hb =>
    cases h' with
    | one =>
      obtain ⟨rfl, -⟩ := List.cons.inj hparts
      obtain rfl := hkey
      rfl
    | two _ _ ha =>
      rw [hleft] at ha
      cases ha
  | two hid hc ha =>
    cases h' with
    | one _ _ hleft =>
      rw [ha] at hleft
      cases hleft
    | two =>
      obtain ⟨rfl, htail⟩ := List.cons.inj hparts
      obtain ⟨rfl, -⟩ := List.cons.inj htail
      obtain rfl := hkey
      rfl

theorem root_unique (hf : f.Valid) (h : Spells f b id (c :: l)) (h' : Spells f b id (c' :: l')) :
    c = c' := (List.cons.inj (h.unique hf h')).1

end Spells

namespace Forest

variable {f : Forest} {b : Bin} {id : NodeId} {c : Choice}

theorem Spelled.root_or_leaf (h : f.Spelled b id) :
    (∃ c l, Spells f b id (c :: l)) ∨ f.choicesAt id = [] ∧ ∃ key, b = .leaf key := by
  obtain ⟨l, h⟩ := h
  cases h with
  | leaf hid hnone => exact .inr ⟨hnone, _, rfl⟩
  | one hid hc hleft hb => exact .inl ⟨_, _, .one hid hc hleft hb⟩
  | two hid hc ha hright hleft => exact .inl ⟨_, _, .two hid hc ha hright hleft⟩

theorem Spelled.key?_eq (h : f.Spelled b id) : f.key? id = some b.key := by
  obtain ⟨l, h⟩ := h
  exact h.key?_eq

theorem not_several_of_choicesAt (h : f.choicesAt id = []) : ¬ f.Several id := by
  have hleaf : ∀ b, f.Spelled b id → ∃ key, b = .leaf key := by
    intro b hb
    rcases hb.root_or_leaf with ⟨c, l, hc⟩ | ⟨-, hleaf⟩
    · have := hc.parts.1
      rw [h] at this
      cases this
    · exact hleaf
  rintro ⟨b, b', hb, hb', hne⟩
  obtain ⟨key, rfl⟩ := hleaf b hb
  obtain ⟨key', rfl⟩ := hleaf b' hb'
  have hkey : key = key' := Option.some.inj (hb.key?_eq.symm.trans hb'.key?_eq)
  exact hne (congrArg Bin.leaf hkey)

theorem exists_forall₂ {ids : List NodeId} (h : ∀ y ∈ ids, ∃ b, f.Spelled b y) :
    ∃ bs, List.Forall₂ f.Spelled bs ids := by
  induction ids with
  | nil => exact ⟨[], .nil⟩
  | cons id rest ih =>
    obtain ⟨b, hb⟩ := h id List.mem_cons_self
    obtain ⟨bs, hbs⟩ := ih fun y hy => h y (List.mem_cons_of_mem _ hy)
    exact ⟨b :: bs, .cons hb hbs⟩

theorem Grounded.exists_root (h : f.Grounded id) (hc : c ∈ f.choicesAt id) :
    ∃ b l, Spells f b id (c :: l) := by
  obtain ⟨b, hb⟩ := h id .refl
  obtain ⟨bs, hbs⟩ := exists_forall₂ fun y hy => h y (.single ⟨c, hc, hy⟩)
  obtain ⟨b', l, hl, -⟩ := Spells.of_parts hb.key?_eq hc hbs
  exact ⟨b', l, hl⟩

theorem Grounded.several (hf : f.Valid) (h : f.Grounded id) {c' : Choice}
    (hc : c ∈ f.choicesAt id) (hc' : c' ∈ f.choicesAt id) (hne : c ≠ c') : f.Several id := by
  obtain ⟨b, l, hb⟩ := h.exists_root hc
  obtain ⟨b', l', hb'⟩ := h.exists_root hc'
  refine ⟨b, b', ⟨_, hb⟩, ⟨_, hb'⟩, ?_⟩
  rintro rfl
  exact hne (hb.root_unique hf hb')

end Forest

/-! ### Following -/

namespace Follows

variable {f : Forest} {applied l l' : List Choice} {pending : List NodeId} {bs : List Bin}

theorem spelled (h : Follows f applied pending bs l) : List.Forall₂ f.Spelled bs pending := by
  induction h with
  | done => exact .nil
  | skip _ hb _ ih => exact .cons hb ih
  | pick hb _ _ ih =>
    have htail := List.forall₂_drop_append _ _ _ ih
    rw [← hb.parts.2.length_eq, List.drop_left] at htail
    exact .cons ⟨_, hb⟩ htail

/-- Where a choice is left, the tree there is followed by the choice at its root. -/
theorem exists_pick {b : Bin} {id : NodeId} {rest : List NodeId}
    (hopen : ∃ c ∈ f.choicesAt id, c ∉ applied)
    (h : Follows f applied (id :: rest) (b :: bs) l) :
    ∃ c l₀ l', Spells f b id (c :: l₀) ∧ l = c :: l' ∧
      Follows f (c :: applied) (c.children ++ rest) (b.parts ++ bs) l' := by
  cases h with
  | skip hclosed =>
    obtain ⟨c, hc, hnew⟩ := hopen
    exact absurd (hclosed c hc) hnew
  | pick hb _ hl => exact ⟨_, _, _, hb, rfl, hl⟩

theorem unfolds (h : Follows f applied pending bs l) : Unfolds f applied pending l := by
  induction h with
  | done => exact .done
  | skip hclosed _ _ ih => exact .skip hclosed ih
  | pick hb hnew _ ih => exact .pick hb.parts.1 hnew ih

/-- **Trees are followed by one derivation only.** -/
theorem unique (hf : f.Valid) (h : Follows f applied pending bs l)
    (h' : Follows f applied pending bs l') : l = l' := by
  induction h generalizing l' with
  | done =>
    cases h'
    rfl
  | skip hclosed _ _ ih =>
    cases h' with
    | skip _ _ hl' => exact ih hl'
    | pick hb' hnew' => exact absurd (hclosed _ hb'.parts.1) hnew'
  | pick hb hnew _ ih =>
    cases h' with
    | skip hclosed' => exact absurd (hclosed' _ hb.parts.1) hnew
    | pick hb' _ hl' =>
      obtain rfl := hb.root_unique hf hb'
      rw [ih hl']

end Follows

/-- **Every derivation follows some trees.** -/
theorem Unfolds.exists_follows {f : Forest} {applied l : List Choice} {pending : List NodeId}
    (h : Unfolds f applied pending l) (hall : ∀ y ∈ pending, f.Grounded y) :
    ∃ bs, Follows f applied pending bs l := by
  induction h with
  | done => exact ⟨[], .done⟩
  | @skip applied l id rest hclosed _ ih =>
    obtain ⟨b, hb⟩ := hall id List.mem_cons_self id .refl
    obtain ⟨bs, hbs⟩ := ih fun y hy => hall y (List.mem_cons_of_mem _ hy)
    exact ⟨b :: bs, .skip hclosed hb hbs⟩
  | @pick applied l id rest c hc hnew _ ih =>
    obtain ⟨bs, hbs⟩ := ih (Forest.below_children hc hall)
    obtain ⟨b, hb⟩ := hall id List.mem_cons_self id .refl
    obtain ⟨b', l', bs', hb', rfl, -⟩ := Spells.of_parts_append hb.key?_eq hc hbs.spelled
    exact ⟨b' :: bs', .pick hb' hnew hbs⟩

namespace Forest

variable {f : Forest} {t : PartialTree}

/-- Whether trees and derivations are one to one from here: any trees at the nodes that wait are
followed, and no derivation follows different ones. -/
structure Matches (f : Forest) (t : PartialTree) : Prop where
  followed : ∀ bs, List.Forall₂ f.Spelled bs t.pending → ∃ l, Follows f t.applied t.pending bs l
  single : ∀ bs bs' l, Follows f t.applied t.pending bs l → Follows f t.applied t.pending bs' l →
    bs = bs'

/-- Whether no node with several trees is entered twice from here, or after a choice was made at
it. -/
def Apart (f : Forest) (t : PartialTree) : Prop :=
  ∀ l, Unfolds f t.applied t.pending l → ∀ id, f.Several id →
    (t.pending ++ l.flatMap Choice.children).count id +
      (if id ∈ t.applied.map Choice.node then 1 else 0) ≤ 1

variable {applied : List Choice} {id : NodeId} {rest : List NodeId}

/-! ### A node that is passed over -/

theorem matches_skip_iff (hclosed : ∀ c ∈ f.choicesAt id, c ∈ applied) (hid : f.Grounded id)
    (hone : ¬ f.Several id) :
    f.Matches ⟨applied, id :: rest⟩ ↔ f.Matches ⟨applied, rest⟩ := by
  have hskip : ∀ {b bs l}, Follows f applied (id :: rest) (b :: bs) l →
      Follows f applied rest bs l := by
    intro b bs l h
    cases h with
    | skip _ _ hl => exact hl
    | pick hb hnew => exact absurd (hclosed _ hb.parts.1) hnew
  constructor
  · rintro ⟨hfollowed, hsingle⟩
    obtain ⟨b, hb⟩ := hid id .refl
    refine ⟨fun bs hbs => ?_, fun bs bs' l h h' => ?_⟩
    · obtain ⟨l, hl⟩ := hfollowed (b :: bs) (.cons hb hbs)
      exact ⟨l, hskip hl⟩
    · exact (List.cons.inj (hsingle _ _ l (.skip hclosed hb h) (.skip hclosed hb h'))).2
  · rintro ⟨hfollowed, hsingle⟩
    refine ⟨fun bs hbs => ?_, fun bs bs' l h h' => ?_⟩
    · obtain ⟨b, bs, hb, htail, rfl⟩ := List.forall₂_cons_right_iff.mp hbs
      obtain ⟨l, hl⟩ := hfollowed bs htail
      exact ⟨l, .skip hclosed hb hl⟩
    · obtain ⟨b, bs, hb, -, rfl⟩ := List.forall₂_cons_right_iff.mp h.spelled
      obtain ⟨b', bs', hb', -, rfl⟩ := List.forall₂_cons_right_iff.mp h'.spelled
      have hbb : b = b' := by
        by_contra hne
        exact hone ⟨b, b', hb, hb', hne⟩
      rw [hbb, hsingle bs bs' l (hskip h) (hskip h')]

theorem apart_skip_iff (hclosed : ∀ c ∈ f.choicesAt id, c ∈ applied) (hone : ¬ f.Several id) :
    f.Apart ⟨applied, id :: rest⟩ ↔ f.Apart ⟨applied, rest⟩ := by
  have hcount : ∀ (l : List Choice) (x : NodeId), f.Several x →
      (id :: rest ++ l.flatMap Choice.children).count x =
        (rest ++ l.flatMap Choice.children).count x := by
    intro l x hx
    have hne : id ≠ x := by
      rintro rfl
      exact hone hx
    rw [List.cons_append, List.count_cons_of_ne hne]
  constructor
  · intro h l hl x hx
    have := h l (.skip hclosed hl) x hx
    rwa [hcount l x hx] at this
  · intro h l hl x hx
    cases hl with
    | skip _ hl =>
      have := h l hl x hx
      rwa [← hcount l x hx] at this
    | pick hc hnew => exact absurd (hclosed _ hc) hnew

/-! ### A node that is entered again -/

variable {c : Choice}

/-- At a node with several trees and a choice made already, the trees with that choice are not
followed, or all are followed at once. -/
theorem not_matches_again (hf : f.Valid) (hall : ∀ y ∈ id :: rest, f.Grounded y)
    (hc : c ∈ f.choicesAt id) (happ : c ∈ applied) (hsev : f.Several id) :
    ¬ f.Matches ⟨applied, id :: rest⟩ := by
  rintro ⟨hfollowed, hsingle⟩
  obtain ⟨b₀, l₀, hb₀⟩ := (hall id List.mem_cons_self).exists_root hc
  obtain ⟨bs, hbs⟩ := exists_forall₂ fun y hy => hall y (List.mem_cons_of_mem _ hy) y .refl
  obtain ⟨l, hl⟩ := hfollowed (b₀ :: bs) (.cons ⟨_, hb₀⟩ hbs)
  cases hl with
  | pick hb hnew =>
    obtain rfl := hb₀.root_unique hf hb
    exact hnew happ
  | skip hclosed _ hl =>
    obtain ⟨b, b', hb, hb', hne⟩ := hsev
    exact hne (List.cons.inj (hsingle _ _ l (.skip hclosed hb hl) (.skip hclosed hb' hl))).1

theorem not_apart_again (hc : c ∈ f.choicesAt id) (happ : c ∈ applied) (hsev : f.Several id) :
    ¬ f.Apart ⟨applied, id :: rest⟩ := by
  intro h
  obtain ⟨l, hl⟩ := exists_leads (f := f) ⟨applied, id :: rest⟩
  have hmem : id ∈ applied.map Choice.node :=
    List.mem_map.mpr ⟨c, happ, node_of_mem_choicesAt hc⟩
  have hle := h l hl.unfolds id hsev
  rw [if_pos hmem, List.cons_append, List.count_cons_self] at hle
  omega

/-! ### A node that is entered for the first time -/

theorem matches_pick_iff (hf : f.Valid) (hkey : ∃ key, f.key? id = some key)
    (hopen : f.choicesAt id ≠ []) (hnew : ∀ c ∈ applied, c.node ≠ id) :
    f.Matches ⟨applied, id :: rest⟩ ↔
      ∀ c ∈ f.choicesAt id, f.Matches ⟨c :: applied, c.children ++ rest⟩ := by
  have hnot : ∀ c ∈ f.choicesAt id, c ∉ applied := fun c hc happ =>
    hnew c happ (node_of_mem_choicesAt hc)
  have hleft : ∃ c ∈ f.choicesAt id, c ∉ applied := by
    obtain ⟨c, hc⟩ := List.exists_mem_of_ne_nil _ hopen
    exact ⟨c, hc, hnot c hc⟩
  obtain ⟨key, hkey⟩ := hkey
  constructor
  · rintro ⟨hfollowed, hsingle⟩ c hc
    refine ⟨fun bs hbs => ?_, fun bs bs' l h h' => ?_⟩
    · obtain ⟨b, l₀, bs, hb, rfl, htail⟩ := Spells.of_parts_append hkey hc hbs
      obtain ⟨l, hl⟩ := hfollowed (b :: bs) (.cons ⟨_, hb⟩ htail)
      obtain ⟨d, l₁, l', hb', rfl, hl'⟩ := hl.exists_pick hleft
      obtain rfl := hb.root_unique hf hb'
      exact ⟨l', hl'⟩
    · obtain ⟨b, l₀, bs, hb, rfl, -⟩ := Spells.of_parts_append hkey hc h.spelled
      obtain ⟨b', l₁, bs', hb', rfl, -⟩ := Spells.of_parts_append hkey hc h'.spelled
      have hnewc := hnot c hc
      obtain ⟨rfl, rfl⟩ := List.cons.inj
        (hsingle _ _ (c :: l) (.pick hb hnewc h) (.pick hb' hnewc h'))
      rfl
  · intro h
    refine ⟨fun bs hbs => ?_, fun bs bs' l hl hl' => ?_⟩
    · obtain ⟨b, bs, hb, htail, rfl⟩ := List.forall₂_cons_right_iff.mp hbs
      rcases hb.root_or_leaf with ⟨c, l₀, hb⟩ | ⟨hnone, -⟩
      · obtain ⟨hc, hparts⟩ := hb.parts
        obtain ⟨l, hl⟩ := (h c hc).followed _ (List.rel_append hparts htail)
        exact ⟨c :: l, .pick hb (hnot c hc) hl⟩
      · exact absurd hnone hopen
    · obtain ⟨b, bs, -, -, rfl⟩ := List.forall₂_cons_right_iff.mp hl.spelled
      obtain ⟨b', bs', -, -, rfl⟩ := List.forall₂_cons_right_iff.mp hl'.spelled
      obtain ⟨c, l₀, m, hb, rfl, hm⟩ := hl.exists_pick hleft
      obtain ⟨d, l₁, m', hb', heq, hm'⟩ := hl'.exists_pick hleft
      obtain ⟨rfl, rfl⟩ := List.cons.inj heq
      obtain ⟨hc, hparts⟩ := hb.parts
      have hall := (h c hc).single _ _ m hm hm'
      have hlen : b.parts.length = b'.parts.length :=
        hparts.length_eq.trans hb'.parts.2.length_eq.symm
      obtain ⟨hroot, rfl⟩ := List.append_inj hall hlen
      rw [hb.eq_of_parts hb' hroot]

theorem apart_pick_iff (hopen : f.choicesAt id ≠ []) (hnew : ∀ c ∈ applied, c.node ≠ id) :
    f.Apart ⟨applied, id :: rest⟩ ↔
      ∀ c ∈ f.choicesAt id, f.Apart ⟨c :: applied, c.children ++ rest⟩ := by
  -- an entrance of the node turns into a choice made at it
  have hcount : ∀ (c : Choice) (l : List Choice) (x : NodeId), c ∈ f.choicesAt id →
      (id :: rest ++ (c :: l).flatMap Choice.children).count x +
          (if x ∈ applied.map Choice.node then 1 else 0) =
        (c.children ++ rest ++ l.flatMap Choice.children).count x +
          (if x ∈ (c :: applied).map Choice.node then 1 else 0) := by
    intro c l x hc
    have hid : id ∉ applied.map Choice.node := by
      intro hmem
      obtain ⟨d, hd, hdid⟩ := List.mem_map.mp hmem
      exact hnew d hd hdid
    rw [List.cons_append, List.count_cons, (c.children_perm rest l).count_eq, List.map_cons,
      node_of_mem_choicesAt hc]
    by_cases hx : x = id
    · subst hx
      simp [hid]
    · simp [hx, Ne.symm hx]
  constructor
  · intro h c hc l hl x hx
    have := h (c :: l) (.pick hc (fun happ => hnew c happ (node_of_mem_choicesAt hc)) hl) x hx
    rwa [hcount c l x hc] at this
  · intro h l hl x hx
    cases hl with
    | skip hclosed =>
      obtain ⟨c, hc⟩ := List.exists_mem_of_ne_nil _ hopen
      exact absurd (node_of_mem_choicesAt hc) (hnew c (hclosed c hc))
    | @pick _ l _ _ c hc _ hl =>
      have := h c hc l hl x hx
      rwa [← hcount c l x hc] at this

/-- **Trees and derivations are one to one** exactly when no node with several trees is entered
twice. -/
theorem matches_iff_apart (hf : f.Valid) (t : PartialTree) (hall : ∀ y ∈ t.pending, f.Grounded y)
    (happ : ∀ c ∈ t.applied, c ∈ f.choicesAt c.node) : f.Matches t ↔ f.Apart t := by
  induction t using unpack_induction (f := f) with
  | done applied =>
    refine ⟨fun _ l hl id _ => ?_, fun _ => ⟨fun bs hbs => ?_, fun bs bs' l h h' => ?_⟩⟩
    · cases hl
      simp only [List.flatMap_nil, List.append_nil, List.count_nil, Nat.zero_add]
      split <;> simp
    · cases hbs
      exact ⟨[], .done⟩
    · cases h
      cases h'
      rfl
  | skip applied id rest hclosed ih =>
    by_cases hsev : f.Several id
    · have hne : f.choicesAt id ≠ [] := fun hnone => not_several_of_choicesAt hnone hsev
      obtain ⟨c, hc⟩ := List.exists_mem_of_ne_nil _ hne
      exact iff_of_false (not_matches_again hf hall hc (hclosed c hc) hsev)
        (not_apart_again hc (hclosed c hc) hsev)
    · rw [matches_skip_iff hclosed (hall id List.mem_cons_self) hsev, apart_skip_iff hclosed hsev]
      exact ih (fun y hy => hall y (List.mem_cons_of_mem _ hy)) happ
  | pick applied id rest c others hopen ih =>
    have hid := hall id List.mem_cons_self
    have hc := choice_of_open hopen
    by_cases hmet : ∃ d ∈ applied, d.node = id
    · obtain ⟨d, hd, rfl⟩ := hmet
      -- a choice that is left differs from one made before
      have hne : c ≠ d := fun e => hc.2 (e ▸ hd)
      have hsev := hid.several hf hc.1 (happ d hd) hne
      exact iff_of_false (not_matches_again hf hall (happ d hd) hd hsev)
        (not_apart_again (happ d hd) hd hsev)
    · have hnew : ∀ d ∈ applied, d.node ≠ id := fun d hd e => hmet ⟨d, hd, e⟩
      have hne : f.choicesAt id ≠ [] := List.ne_nil_of_mem hc.1
      obtain ⟨b, hb⟩ := hid id .refl
      rw [matches_pick_iff hf ⟨_, hb.key?_eq⟩ hne hnew, apart_pick_iff hne hnew]
      rw [filter_choicesAt hnew] at hopen
      refine forall₂_congr fun d hd => ih d (hopen ▸ hd) (below_children hd hall) fun e he => ?_
      rcases List.mem_cons.mp he with rfl | he
      · rwa [node_of_mem_choicesAt hd]
      · exact happ e he

end Forest

end Parsing
