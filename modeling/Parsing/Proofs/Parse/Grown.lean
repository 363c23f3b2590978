/-
# Families that a parse grows

The families that a parse gives to the nodes of its forest are those of the moves
of its items: an item that moves over a symbol gets a family of the node for what
stood before the dot and the symbol's node, and a rule without a right-hand side a
family of the empty leaf. `Grown` lists these families by the keys of the nodes.

A forest is sound for a text when it is valid, all its families are grown, its nodes
without families are leaves that some item calls for (`Bare`), and the first family of a
node, which comes together with the node, has children created before it, or the empty
leaf. Making the node for an item that has moved, or for a symbol derived as nothing, keeps
a forest sound and never fails.

Key definitions: `Item.label`, `Item.owned`, `Spans`, `Grown`, `Bare`, `Leaf`,
`Forest.Precedes`, `Forest.Sound`.
Key theorems: `Grown.check`, `Forest.nodeFor_spec`, `Forest.emptyNode_spec`.
-/
import Parsing.Parse.Run
import Parsing.Proofs.Fits
import Parsing.Proofs.Forest.Valid

namespace Parsing

/-! ### Labels of items -/

namespace Item

/-- The label of the node for what an item has recognised. -/
def label (it : Item) : Label :=
  if it.isComplete then .symbol it.lhs
  else match it.rule.rhs.take it.dot with
    | [s] => .symbol s
    | _ => .item it

/-- Whether the item has a node of its own; for an item with its dot behind the first of
several symbols the symbol's node stands in. -/
def owned (it : Item) : Prop := it.isComplete = true ∨ it.dot ≠ 1

/-- The key of the node for what an item has recognised of a span, if it is anything. -/
def key? (it : Item) (start stop : Nat) : Option NodeKey :=
  if it.dot = 0 then none else some ⟨start, stop, it.label⟩

variable {it it' : Item} {s : Symbol}

theorem label_of_isComplete (h : it.isComplete = true) : it.label = .symbol it.lhs := by
  simp [label, h]

theorem label_of_dot_ne_one (h : it.isComplete = false) (hd : it.dot ≠ 1) :
    it.label = .item it := by
  have hlen : (it.rule.rhs.take it.dot).length ≠ 1 := by
    have := it.dot_le
    rw [List.length_take]
    omega
  rw [label, if_neg (by simp [h])]
  split
  · next e => simp [e] at hlen
  · rfl

/-- An item without a node of its own has just moved over its first symbol. -/
theorem label_of_not_owned (hs : it.next? = some s) (ha : it.advance = .ok it')
    (h : ¬ it'.owned) : it.dot = 0 ∧ it'.label = .symbol s := by
  obtain ⟨hc, hd⟩ := not_or.mp h
  obtain ⟨-, hdot⟩ := advance_eq_ok_iff.mp ha
  have htake := take_dot_of_advance hs ha
  have hzero : it.dot = 0 := by omega
  rw [hzero, List.take_zero, List.nil_append] at htake
  refine ⟨hzero, ?_⟩
  simp [label, hc, htake]

end Item

/-! ### Grown families -/

/-- Whether the symbol is read or recognised between the two positions. -/
def Spans (g : Grammar) (tokens : List Symbol) (s : Symbol) (start stop : Nat) : Prop :=
  (tokens[start]? = some s ∧ stop = start + 1) ∨
    (tokens[start]? ≠ some s ∧ ∃ done, Fits g .literal tokens done start stop ∧
      done.isComplete = true ∧ done.lhs = s)

/-- The families that a parse grows: the key of the node, of the left child if there is one,
and of the right child. -/
inductive Grown (g : Grammar) (tokens : List Symbol) : NodeKey → Option NodeKey → NodeKey → Prop
  | empty {done : Item} {i : Nat} (h : Fits g .literal tokens done i i)
      (hr : done.rule.rhs = []) :
      Grown g tokens ⟨i, i, .symbol done.lhs⟩ none ⟨i, i, .epsilon⟩
  | move {it it' : Item} {o k i : Nat} {s : Symbol} (h : Fits g .literal tokens it o k)
      (hs : it.next? = some s) (ha : it.advance = .ok it') (hx : Spans g tokens s k i)
      (ho : it'.owned) : Grown g tokens ⟨o, i, it'.label⟩ (it.key? o k) ⟨k, i, .symbol s⟩

/-- The keys of the nodes that a parse makes without families: the empty text where a symbol is
derived as nothing, and a token where an item waits for it. -/
inductive Bare (g : Grammar) (tokens : List Symbol) : NodeKey → Prop
  | empty {done : Item} {i : Nat} (h : Fits g .literal tokens done i i)
      (hr : done.rule.rhs = []) : Bare g tokens ⟨i, i, .epsilon⟩
  | token {it : Item} {o k : Nat} {t : Symbol} (h : Fits g .literal tokens it o k)
      (hs : it.next? = some t) (ht : tokens[k]? = some t) : Bare g tokens ⟨k, k + 1, .symbol t⟩

/-- The keys of empty leaves and of tokens. -/
def Leaf (tokens : List Symbol) (key : NodeKey) : Prop :=
  (∃ i, key = ⟨i, i, .epsilon⟩) ∨ ∃ i a, tokens[i]? = some a ∧ key = ⟨i, i + 1, .symbol a⟩

section

variable {g : Grammar} {tokens : List Symbol} {it it' : Item} {o k i : Nat} {s : Symbol}

theorem Spans.le (h : Spans g tokens s k i) : k ≤ i := by
  rcases h with ⟨-, rfl⟩ | ⟨-, done, hd, -⟩
  · exact Nat.le_succ k
  · exact hd.origin_le

theorem Bare.leaf {key : NodeKey} (h : Bare g tokens key) : Leaf tokens key := by
  cases h with
  | empty => exact .inl ⟨_, rfl⟩
  | token _ _ ht => exact .inr ⟨_, _, ht, rfl⟩

theorem Fits.move (h : Fits g .literal tokens it o k) (hs : it.next? = some s)
    (ha : it.advance = .ok it') (hx : Spans g tokens s k i) :
    Fits g .literal tokens it' o i := by
  rcases hx with ⟨ht, rfl⟩ | ⟨ht, done, hd, hc, rfl⟩
  · exact .scan h hs ha ht rfl
  · exact .complete h hs ha ht hd hc

/-- Grown families tile the span of their node. -/
theorem Grown.check {key right : NodeKey} {left? : Option NodeKey}
    (h : Grown g tokens key left? right) :
    key.start ≤ key.stop ∧ Family.check key left? right = .ok () := by
  rw [Family.check_eq_ok_iff]
  cases h with
  | empty => exact ⟨Nat.le_refl _, rfl, rfl⟩
  | @move it _ o k i _ h hs ha hx ho =>
    refine ⟨Nat.le_trans h.origin_le hx.le, rfl, ?_⟩
    unfold Item.key?
    by_cases hd : it.dot = 0
    · simp [hd, h.origin_eq hd]
    · simp [hd]

end

/-! ### Sound forests -/

namespace Forest

/-- Whether every child of the family was created before the node or is the empty leaf. -/
def Precedes (f : Forest) (fam : Family) (id : NodeId) : Prop :=
  ∀ child ∈ fam.right :: fam.left?.toList,
    child < id ∨ ∃ key, f.key? child = some key ∧ key.label = .epsilon

/-- Whether the forest is valid, its families are grown, its nodes without families are bare,
save one that is to get a family, and the first family of a node that is no leaf precedes the
node. -/
structure SoundBut (g : Grammar) (tokens : List Symbol) (fresh? : Option NodeKey) (f : Forest) :
    Prop where
  valid : f.Valid
  grown : ∀ n ∈ f.nodes, ∀ fam ∈ n.families,
    ∃ left? right, f.Names fam left? right ∧ Grown g tokens n.key left? right
  bare : ∀ n ∈ f.nodes, n.families = [] → Bare g tokens n.key ∨ fresh? = some n.key
  early : ∀ (id : NodeId) (n : Node), f.nodes[id]? = some n → ¬ Leaf tokens n.key →
    ∀ fam, n.families.head? = some fam → f.Precedes fam id

/-- Whether the forest is valid, its families are grown, its nodes without families are bare, and
first families precede their nodes. -/
abbrev Sound (g : Grammar) (tokens : List Symbol) (f : Forest) : Prop := f.SoundBut g tokens none

variable {g : Grammar} {tokens : List Symbol} {f : Forest} {fresh? : Option NodeKey}
  {key right : NodeKey} {left? : Option NodeKey} {id : NodeId} {fam : Family}

theorem SoundBut.leaf (hf : f.SoundBut g tokens fresh?) :
    ∀ n ∈ f.nodes, n.families = [] → Leaf tokens n.key ∨ fresh? = some n.key :=
  fun n hn hbare => (hf.bare n hn hbare).imp_left Bare.leaf

theorem Precedes.mono {f' : Forest} (h : f.Precedes fam id) (hgr : f.Grows f') :
    f'.Precedes fam id := by
  intro child hchild
  rcases h child hchild with hlt | ⟨k, hk, he⟩
  · exact .inl hlt
  · exact .inr ⟨k, hgr.key? hk, he⟩

theorem sound_empty : (Forest.empty).Sound g tokens where
  valid := ⟨List.nodup_nil, by simp [empty], by simp [empty], by simp [empty]⟩
  grown := by simp [empty]
  bare := by simp [empty]
  early := by simp [empty]

theorem lt_of_names {child : NodeId} (h : f.Names fam left? right)
    (hchild : child ∈ fam.right :: fam.left?.toList) : child < f.nodes.length := by
  have hlt : ∀ {key : NodeKey}, f.key? child = some key → child < f.nodes.length := by
    intro key hk
    obtain ⟨n, hn, -⟩ := key?_eq_some_iff.mp hk
    exact (List.getElem?_eq_some_iff.mp hn).1
  rcases List.mem_cons.mp hchild with rfl | hchild
  · exact hlt h.2
  · have hl := h.1
    rw [Option.mem_toList.mp hchild, Option.map_some] at hl
    obtain ⟨left, -, hk⟩ := Option.map_eq_some_iff.mp hl.symm
    exact hlt hk.symm

/-- A new node is bare or is to get a family. -/
theorem SoundBut.ensure (hf : f.SoundBut g tokens fresh?) (key : NodeKey)
    (new? : Option NodeKey) (hk : key.start ≤ key.stop) (hold : fresh? = none ∨ fresh? = new?)
    (hnew : Bare g tokens key ∨ new? = some key) :
    ∃ id f', f.ensure key = .ok (id, f') ∧ f'.SoundBut g tokens new? ∧ f.Grows f' ∧
      f'.key? id = some key := by
  obtain ⟨id, f', hrun, hv, hgr, hid, hnodes⟩ := ensure_spec hf.valid hk
  refine ⟨id, f', hrun, ⟨hv, ?_, ?_, ?_⟩, hgr, hid⟩
  · intro n hn fam hfam
    rcases hnodes n hn with hn | rfl
    · obtain ⟨l, r, hnames, hg⟩ := hf.grown n hn fam hfam
      exact ⟨l, r, hgr.names hnames, hg⟩
    · cases hfam
  · intro n hn hbare
    rcases hnodes n hn with hn | rfl
    · rcases hf.bare n hn hbare with hold | hfresh
      · exact .inl hold
      · rcases hold with h | h
        · rw [h] at hfresh
          cases hfresh
        · exact .inr (h ▸ hfresh)
    · exact hnew
  · intro i n hi hleaf fam hfam
    rcases hnodes n (List.mem_of_getElem? hi) with hn | rfl
    · have hi := hgr.getElem?_of_mem hv hn hi rfl
      exact (hf.early i n hi hleaf fam hfam).mono hgr
    · cases hfam

/-- With a grown family the node that was to get one has it. The family has to precede the
node if it is its first. -/
theorem SoundBut.addFamily (hf : f.SoundBut g tokens (some key)) (hid : f.key? id = some key)
    (hnames : f.Names fam left? right) (hg : Grown g tokens key left? right)
    (hfirst : ∀ n, f.nodes[id]? = some n → n.families = [] → ¬ Leaf tokens key →
      f.Precedes fam id) :
    ∃ b f', f.addFamily id fam = .ok (b, f') ∧ f'.Sound g tokens ∧ f.Grows f' ∧
      f'.Packs key left? right := by
  obtain ⟨b, f', hrun, hv, hgr, hp, hnodes⟩ := addFamily_spec hf.valid hid hnames hg.check.2
  refine ⟨b, f', hrun, ⟨hv, ?_, ?_, ?_⟩, hgr, hp⟩
  · intro n' hn' fam' hfam'
    obtain ⟨n, hn, hk, hfams⟩ := hnodes n' hn'
    rw [hk]
    have hold : fam' ∈ n.families →
        ∃ l r, f'.Names fam' l r ∧ Grown g tokens n.key l r := by
      intro hmem
      obtain ⟨l, r, hl, hgrown⟩ := hf.grown n hn fam' hmem
      exact ⟨l, r, hgr.names hl, hgrown⟩
    rcases hfams with hfams | ⟨rfl, hfams⟩
    · exact hold (hfams ▸ hfam')
    · rw [hfams, List.mem_append, List.mem_singleton] at hfam'
      rcases hfam' with hmem | rfl
      · exact hold hmem
      · exact ⟨left?, right, hgr.names hnames, hg⟩
  · intro n' hn' hbare
    obtain ⟨n, hn, hk, hfams⟩ := hnodes n' hn'
    have hne : n.key ≠ key := by
      intro e
      obtain ⟨m, hm, hmk, fam', hfam', -⟩ := hp
      have : m = n' := hv.node_inj hm hn' (by rw [hmk, hk, e])
      rw [this, hbare] at hfam'
      cases hfam'
    rcases hfams with hfams | ⟨e, -⟩
    · rw [hk]
      rcases hf.bare n hn (hfams ▸ hbare) with hold | hfresh
      · exact .inl hold
      · exact absurd (Option.some.inj hfresh).symm hne
    · exact absurd e hne
  · intro i n' hi hleaf fam' hfam'
    obtain ⟨n, hn, hk, hfams⟩ := hnodes n' (List.mem_of_getElem? hi)
    rw [hk] at hleaf
    have hi := hgr.getElem?_of_mem hv hn hi hk
    -- a family more at the end is the first one only where there was none
    rcases hfams with hfams | ⟨rfl, hfams⟩
    · rw [hfams] at hfam'
      exact (hf.early i n hi hleaf fam' hfam').mono hgr
    · cases hold : n.families with
      | nil =>
        obtain rfl : i = id := hf.valid.key_inj (key?_eq_some_iff.mpr ⟨n, hi, rfl⟩) hid
        rw [hfams, hold] at hfam'
        obtain rfl : fam = fam' := Option.some.inj hfam'
        exact (hfirst n hi hold hleaf).mono hgr
      | cons a rest =>
        rw [hfams, hold] at hfam'
        exact (hf.early i n hi hleaf fam' (by rw [hold]; exact hfam')).mono hgr

/-- **An item that moves gets its node.** The node for what stands before the dot is there
afterwards, with the family of the move if it is the item's own. -/
theorem nodeFor_spec {it it' : Item} {o k i : Nat} {s : Symbol} {left : Option NodeId}
    {right : NodeId} (hf : f.Sound g tokens) (h : Fits g .literal tokens it o k)
    (hs : it.next? = some s) (ha : it.advance = .ok it') (hx : Spans g tokens s k i)
    (hleft : left.map f.key? = (it.key? o k).map some)
    (hright : f.key? right = some ⟨k, i, .symbol s⟩) :
    ∃ id f', f.nodeFor it' o i left right = .ok (id, f') ∧ f'.Sound g tokens ∧ f.Grows f' ∧
      f'.key? id = some ⟨o, i, it'.label⟩ ∧
      (it'.owned → f'.Packs ⟨o, i, it'.label⟩ (it.key? o k) ⟨k, i, .symbol s⟩) := by
  unfold nodeFor
  by_cases hc : it'.isComplete = false ∧ it'.dot = 1
  · have hno : ¬ it'.owned := by simp [Item.owned, hc]
    obtain ⟨hd, hl⟩ := Item.label_of_not_owned hs ha hno
    rw [if_pos hc, hl]
    have ho : o = k := h.origin_eq hd
    exact ⟨right, f, rfl, hf, .refl f, ho ▸ hright, fun howned => absurd howned hno⟩
  · have howned : it'.owned := by
      unfold Item.owned
      cases hcomp : it'.isComplete with
      | true => exact .inl rfl
      | false => exact .inr fun e => hc ⟨hcomp, e⟩
    have hg : Grown g tokens ⟨o, i, it'.label⟩ (it.key? o k) ⟨k, i, .symbol s⟩ :=
      .move h hs ha hx howned
    have hlabel :
        (if it'.isComplete then Label.symbol it'.lhs else Label.item it') = it'.label := by
      cases hcomp : it'.isComplete with
      | true => rw [Item.label_of_isComplete hcomp]; rfl
      | false =>
        rw [Item.label_of_dot_ne_one hcomp fun e => hc ⟨hcomp, e⟩]
        rfl
    rw [if_neg hc, hlabel]
    obtain ⟨id, f₁, hrun₁, hf₁, hgr₁, hid⟩ :=
      hf.ensure ⟨o, i, it'.label⟩ (some ⟨o, i, it'.label⟩) hg.check.1 (.inl rfl) (.inr rfl)
    have hnames : f₁.Names ⟨left, right⟩ (it.key? o k) ⟨k, i, .symbol s⟩ :=
      hgr₁.names ⟨hleft, hright⟩
    -- a node that was there before without families is a leaf, and a new one comes last
    have hfirst : ∀ n, f₁.nodes[id]? = some n → n.families = [] →
        ¬ Leaf tokens ⟨o, i, it'.label⟩ → f₁.Precedes ⟨left, right⟩ id := by
      intro n hn hbare hleaf child hchild
      refine .inl (Nat.lt_of_lt_of_le (lt_of_names ⟨hleft, hright⟩ hchild) ?_)
      by_contra hlt
      obtain ⟨m, hm⟩ : ∃ m, f.nodes[id]? = some m :=
        ⟨_, List.getElem?_eq_getElem (Nat.lt_of_not_le hlt)⟩
      obtain ⟨n', hn', hk, hpre⟩ := hgr₁ id m hm
      obtain rfl : n = n' := Option.some.inj (hn.symm.trans hn')
      rw [hbare, List.prefix_nil] at hpre
      obtain ⟨_, hn'', hkey⟩ := key?_eq_some_iff.mp hid
      obtain rfl := Option.some.inj (hn.symm.trans hn'')
      have := (hf.leaf m (List.mem_of_getElem? hm) hpre).resolve_right (by simp)
      exact hleaf (hkey ▸ hk ▸ this)
    obtain ⟨b, f₂, hrun₂, hf₂, hgr₂, hp⟩ := hf₁.addFamily hid hnames hg hfirst
    refine ⟨id, f₂, ?_, hf₂, hgr₁.trans hgr₂, hgr₂.key? hid, fun _ => hp⟩
    simp [bind, Except.bind, hrun₁, hrun₂, pure, Except.pure]

/-- **A symbol derived as nothing gets its node**, over the empty leaf. -/
theorem emptyNode_spec {done : Item} {i : Nat} (hf : f.Sound g tokens)
    (h : Fits g .literal tokens done i i) (hr : done.rule.rhs = []) :
    ∃ id f', f.emptyNode done.lhs i = .ok (id, f') ∧ f'.Sound g tokens ∧ f.Grows f' ∧
      f'.key? id = some ⟨i, i, .symbol done.lhs⟩ ∧
      f'.Packs ⟨i, i, .symbol done.lhs⟩ none ⟨i, i, .epsilon⟩ := by
  have hg : Grown g tokens ⟨i, i, .symbol done.lhs⟩ none ⟨i, i, .epsilon⟩ := .empty h hr
  obtain ⟨id, f₁, hrun₁, hf₁, hgr₁, hid⟩ := hf.ensure ⟨i, i, .symbol done.lhs⟩
    (some ⟨i, i, .symbol done.lhs⟩) hg.check.1 (.inl rfl) (.inr rfl)
  obtain ⟨leaf, f₂, hrun₂, hf₂, hgr₂, hleaf⟩ := hf₁.ensure ⟨i, i, .epsilon⟩
    (some ⟨i, i, .symbol done.lhs⟩) (Nat.le_refl i) (.inr rfl) (.inl (.empty h hr))
  have hnames : f₂.Names ⟨none, leaf⟩ none ⟨i, i, .epsilon⟩ := ⟨rfl, hleaf⟩
  have hfirst : f₂.Precedes ⟨none, leaf⟩ id := by
    intro child hchild
    rw [List.mem_singleton.mp hchild]
    exact .inr ⟨_, hleaf, rfl⟩
  obtain ⟨b, f₃, hrun₃, hf₃, hgr₃, hp⟩ :=
    hf₂.addFamily (hgr₂.key? hid) hnames hg fun _ _ _ _ => hfirst
  refine ⟨id, f₃, ?_, hf₃, (hgr₁.trans hgr₂).trans hgr₃, hgr₃.key? (hgr₂.key? hid), hp⟩
  unfold emptyNode
  simp [bind, Except.bind, hrun₁, hrun₂, hrun₃, pure, Except.pure]

end Forest

end Parsing
