/-
# Descending in a parse forest

The children of a node lie within its span. A child over the whole span of its node
takes all of the text, so the other symbols beside it derive nothing, and what the
node stands for derives what the child stands for. Where no nonterminal derives
itself, therefore, no node lies below itself: on a circle all spans are one, a symbol
on it would derive itself, and between items the dot only moves back.

Key definitions: `Label.form`, `Under`, `Grammar.Acyclic`.
Key theorems: `Under.derives`, `Under.irrefl`, `Parse.Exact.acyclic`.
-/
import Parsing.Proofs.Forest.Covering
import Parsing.Proofs.Parse.Packing

namespace Parsing

/-- The symbols that a node stands for. -/
def Label.form : Label → List Symbol
  | symbol s => [s]
  | item it => it.rule.rhs.take it.dot
  | epsilon => []

/-- Whether `b` is the key of a child of the node known by `a`. -/
def Under (g : Grammar) (tokens : List Symbol) (a b : NodeKey) : Prop :=
  ∃ left? right, Packed g tokens a left? right ∧ (left? = some b ∨ right = b)

/-- Whether no nonterminal derives itself in one or more steps. -/
def Grammar.Acyclic (g : Grammar) : Prop :=
  ∀ A, g.isNonterminal A = true → ¬ Relation.TransGen (Rewrites g.rules) [A] [A]

theorem Label.form_item_dotted (A : Symbol) (before after : List Symbol) :
    (Label.item (.dotted A before after)).form = before := by
  simp [form, Item.dotted]

theorem Label.form_front (A : Symbol) (before after : List Symbol) :
    (Label.front A before after).form = before := by
  unfold front
  split
  · rfl
  · exact form_item_dotted A before after

/-- Only the label of a symbol alone is a symbol's. -/
theorem Label.front_eq_symbol {A s : Symbol} {before after : List Symbol}
    (h : Label.front A before after = .symbol s) : before = [s] := by
  unfold front at h
  split at h
  · rw [Label.symbol.inj h]
  · cases h

theorem Derives.transGen_of_rule {rs : List Rule} {r : Rule} {w : List Symbol} (hr : r ∈ rs)
    (h : Derives rs r.rhs w) : Relation.TransGen (Rewrites rs) [r.lhs] w := by
  have hstep : Rewrites rs [r.lhs] r.rhs := by simpa using Rewrites.step hr [] []
  exact Relation.TransGen.head' hstep h

/-- The node of the start symbol is not that of the reserved symbol. -/
theorem Grammar.Unmarked.label_start_ne {g : Grammar} (hg : g.Unmarked) :
    Label.symbol g.start ≠ .symbol Grammar.startMark := fun e => hg.1 (Label.symbol.inj e)

/-- A grammar is acyclic if each of its rules has two symbols or more, or one without rules. -/
theorem Grammar.acyclic_of_rules {g : Grammar} (h : ∀ r ∈ g.rules, 2 ≤ r.rhs.length ∨
    r.rhs.length = 1 ∧ ∀ a ∈ r.rhs, g.isNonterminal a = false) : g.Acyclic := by
  have heps : ∀ r ∈ g.rules, r.rhs ≠ [] := by
    intro r hr
    rw [← List.length_pos_iff]
    rcases h r hr with hlen | ⟨hlen, -⟩ <;> omega
  intro A hA hcycle
  obtain ⟨v, hstep, hback⟩ := Relation.TransGen.head'_iff.mp hcycle
  have hback : Derives g.rules v [A] := hback
  generalize hu : [A] = u at hstep
  obtain @⟨r, hr, before, after⟩ := hstep
  obtain ⟨rfl, hrest⟩ := (List.append_eq_singleton_iff.mp hu.symm).resolve_right (by simp)
  obtain ⟨rfl, rfl⟩ := List.cons.inj hrest
  rw [List.nil_append, List.append_nil] at hback
  rcases h r hr with hlen | ⟨hlen, hterm⟩
  · have hle := hback.length_le heps
    rw [List.length_singleton] at hle
    omega
  · obtain ⟨a, ha⟩ := List.length_eq_one_iff.mp hlen
    rw [ha] at hback hterm
    have hfalse := hterm a (by simp)
    have heq := hback.eq_of_terminal (Grammar.isNonterminal_eq_false_iff.mp hfalse)
    rw [List.singleton_inj.mp heq, hfalse] at hA
    cases hA

/-- A grammar is acyclic if the symbols of each rule rank below its left-hand side. -/
theorem Grammar.acyclic_of_rank {g : Grammar} (rank : Symbol → Nat)
    (h : ∀ r ∈ g.rules, ∀ s ∈ r.rhs, rank s < rank r.lhs) : g.Acyclic := by
  intro A _ hcycle
  have hbelow : ∀ v, Relation.TransGen (Rewrites g.rules) [A] v → ∀ s ∈ v, rank s < rank A := by
    intro v hv
    induction hv with
    | single hstep =>
      generalize hu : [A] = u at hstep
      obtain @⟨r, hr, before, after⟩ := hstep
      obtain ⟨rfl, hrest⟩ := (List.append_eq_singleton_iff.mp hu.symm).resolve_right (by simp)
      obtain ⟨rfl, rfl⟩ := List.cons.inj hrest
      simpa using h r hr
    | tail _ hstep ih =>
      obtain @⟨r, hr, before, after⟩ := hstep
      have hlhs := ih r.lhs (by simp)
      intro s hs
      rcases List.mem_append.mp hs with hs | hs
      · exact ih s (by simp [hs])
      · rcases List.mem_append.mp hs with hs | hs
        · exact Nat.lt_trans (h r hr s hs) hlhs
        · exact ih s (by simp [hs])
  exact Nat.lt_irrefl _ (hbelow [A] hcycle A (List.mem_singleton_self A))

variable {g : Grammar} {tokens : List Symbol} {a b : NodeKey}

namespace Under

/-- A child lies within the span of its node. -/
theorem span (h : Under g tokens a b) : a.start ≤ b.start ∧ b.stop ≤ a.stop := by
  obtain ⟨l?, r, hp, hb⟩ := h
  cases hp with
  | empty | unit =>
    rcases hb with hb | rfl
    · cases hb
    · exact ⟨Nat.le_refl _, Nat.le_refl _⟩
  | rule _ _ hjk hki | part _ _ _ hjk hki =>
    rcases hb with hb | rfl
    · cases hb
      exact ⟨Nat.le_refl _, hki⟩
    · exact ⟨hjk, Nat.le_refl _⟩

/-- What a node stands for derives what a child over the same span stands for, a nonterminal
by at least one step. -/
theorem derives (h : Under g tokens a b) (hstart : b.start = a.start) (hstop : b.stop = a.stop) :
    Derives g.rules a.label.form b.label.form ∧
      ∀ A, a.label = .symbol A → Relation.TransGen (Rewrites g.rules) [A] b.label.form := by
  -- of two symbols or rows side by side, the one beside the child derives nothing
  have hleft : ∀ {before : List Symbol} {X : Symbol} {j k i : Nat}, k = i →
      Derives g.rules [X] (stretch tokens k i) →
      Derives g.rules (before ++ [X]) before := by
    rintro before X j k i rfl hX
    rw [stretch_self] at hX
    simpa using (Derives.refl before).append hX
  have hright : ∀ {before : List Symbol} {X : Symbol} {j k : Nat}, k = j →
      Derives g.rules before (stretch tokens j k) → Derives g.rules (before ++ [X]) [X] := by
    rintro before X j k rfl hbefore
    rw [stretch_self] at hbefore
    simpa using hbefore.append (Derives.refl [X])
  obtain ⟨l?, r, hp, hb⟩ := h
  cases hp with
  | @empty A i hr =>
    obtain rfl := hb.resolve_left (by simp)
    have hd := Derives.transGen_of_rule hr (.refl [])
    refine ⟨hd.to_reflTransGen, fun B hB => ?_⟩
    cases hB
    exact hd
  | @unit A X j i hr hX =>
    obtain rfl := hb.resolve_left (by simp)
    have hd := Derives.transGen_of_rule hr (.refl [X])
    refine ⟨hd.to_reflTransGen, fun B hB => ?_⟩
    cases hB
    exact hd
  | @rule A X before j k i hr hne hjk hki hbefore hX =>
    have hd : Derives g.rules (before ++ [X]) b.label.form := by
      rcases hb with hb | rfl
      · cases hb
        rw [Label.form_front]
        exact hleft (j := j) hstop hX
      · exact hright hstart hbefore
    have hd := Derives.transGen_of_rule hr hd
    refine ⟨hd.to_reflTransGen, fun B hB => ?_⟩
    cases hB
    exact hd
  | @part A X before after j k i hr hne ha hjk hki hbefore hX =>
    rw [Label.form_item_dotted]
    refine ⟨?_, fun B hB => by cases hB⟩
    rcases hb with hb | rfl
    · cases hb
      rw [Label.form_front]
      exact hleft (j := j) hstop hX
    · exact hright hstart hbefore

theorem length_lt (h : Under g tokens a b) {it : Item} (hit : a.label = .item it) :
    b.label.form.length < a.label.form.length := by
  obtain ⟨l?, r, hp, hb⟩ := h
  cases hp with
  | empty | unit | rule => cases hit
  | @part A X before after j k i hr hne =>
    have hpos := List.length_pos_iff.mpr hne
    rw [Label.form_item_dotted, List.length_append, List.length_singleton]
    rcases hb with hb | rfl
    · cases hb
      rw [Label.form_front]
      exact Nat.lt_succ_self _
    · exact Nat.succ_lt_succ hpos

/-- Only nonterminals, items and the empty leaf have a place in the forest. -/
theorem isNonterminal (h : Under g tokens a b) {A : Symbol} (hA : a.label = .symbol A) :
    g.isNonterminal A = true := by
  obtain ⟨l?, r, hp, -⟩ := h
  cases hp with
  | empty hr | unit hr | rule hr =>
    cases hA
    exact Grammar.isNonterminal_iff.mpr ⟨_, hr, rfl⟩
  | part => cases hA

theorem label_ne (hg : g.Unmarked) (h : Under g tokens a b) :
    b.label ≠ .symbol Grammar.startMark := by
  have hrhs : ∀ {A : Symbol} {rhs : List Symbol}, (⟨A, rhs⟩ : Rule) ∈ g.rules →
      Grammar.startMark ∉ rhs := fun hr => (hg.2 _ hr).2
  obtain ⟨l?, r, hp, hb⟩ := h
  intro e
  cases hp with
  | empty =>
    obtain rfl := hb.resolve_left (by simp)
    cases e
  | unit hr =>
    obtain rfl := hb.resolve_left (by simp)
    cases e
    exact hrhs hr (by simp)
  | rule hr | part hr =>
    rcases hb with hb | rfl
    · cases hb
      rw [Label.front_eq_symbol e] at hr
      exact hrhs hr (by simp)
    · cases e
      exact hrhs hr (by simp)

/-- Further down, spans still lie within, and over the same span what is above derives what is
below. -/
theorem below (h : Relation.ReflTransGen (Under g tokens) a b) :
    (a.start ≤ b.start ∧ b.stop ≤ a.stop) ∧ (b.start = a.start → b.stop = a.stop →
      Derives g.rules a.label.form b.label.form) := by
  induction h with
  | refl => exact ⟨⟨Nat.le_refl _, Nat.le_refl _⟩, fun _ _ => .refl _⟩
  | @tail b c _ hs ih =>
    obtain ⟨⟨h₁, h₂⟩, hd⟩ := ih
    have hspan := hs.span
    refine ⟨⟨by omega, by omega⟩, fun hstart hstop => ?_⟩
    have hb₁ : b.start = a.start := by omega
    have hb₂ : b.stop = a.stop := by omega
    exact (hd hb₁ hb₂).trans (hs.derives (by omega) (by omega)).1

/-- **No node lies below itself** where no nonterminal derives itself. -/
theorem irrefl (hg : g.Acyclic) (a : NodeKey) : ¬ Relation.TransGen (Under g tokens) a a := by
  have hsymbol : ∀ (a : NodeKey) (A : Symbol), a.label = .symbol A →
      ¬ Relation.TransGen (Under g tokens) a a := by
    intro a A hA h
    obtain ⟨b, hstep, hback⟩ := Relation.TransGen.head'_iff.mp h
    obtain ⟨⟨h₁, h₂⟩, hd⟩ := below hback
    have hspan := hstep.span
    have hfirst := (hstep.derives (by omega) (by omega)).2 A hA
    have hrest := hd (by omega) (by omega)
    rw [hA] at hrest
    exact hg A (hstep.isNonterminal hA) (hfirst.trans_left hrest)
  intro h
  induction hn : a.label.form.length using Nat.strongRecOn generalizing a with
  | _ n ih =>
    obtain ⟨b, hstep, hback⟩ := Relation.TransGen.head'_iff.mp h
    cases hlabel : a.label with
    | symbol A => exact hsymbol a A hlabel h
    | item it =>
      have hlt := hstep.length_lt hlabel
      exact ih _ (hn ▸ hlt) b (Relation.TransGen.tail' hback hstep) rfl
    | epsilon =>
      obtain ⟨l?, r, hp, -⟩ := hstep
      cases hp <;> cases hlabel

end Under

/-! ### In the forest of a parse -/

namespace Parse.Exact

variable {p : Parse} {x y : NodeId} {key : NodeKey}

/-- A node without choices is a leaf. -/
theorem leaf_of_choicesAt (hp : p.Exact g tokens) {n : Node} (hn : p.forest.nodes[x]? = some n)
    (h : p.forest.choicesAt x = []) : Leaf tokens n.key := by
  have hbare : n.families = [] := by
    rw [← List.length_eq_zero_iff, ← Forest.length_choicesAt hn, h, List.length_nil]
  exact (hp.forest.leaf n (List.mem_of_getElem? hn) hbare).resolve_right (by simp)

/-- Choices at a node are families that the grammar calls for. -/
theorem packed (hp : p.Exact g tokens) (hg : g.Unmarked)
    (hT : ∀ t ∈ tokens, g.isNonterminal t = false) (hx : p.forest.key? x = some key)
    (hmark : key.label ≠ .symbol Grammar.startMark) {c : Choice} (hc : c ∈ p.forest.choicesAt x) :
    ∃ left? right, p.forest.Names c.family left? right ∧ Packed g tokens key left? right := by
  obtain ⟨n, hn, hfam, -⟩ := hp.forest.valid.choice hc
  obtain ⟨m, hm, rfl⟩ := Forest.key?_eq_some_iff.mp hx
  obtain rfl : n = m := Option.some.inj (hn.symm.trans hm)
  obtain ⟨l?, r, hnames, hgrown⟩ := hp.forest.grown n (List.mem_of_getElem? hn) c.family hfam
  exact ⟨l?, r, hnames, hgrown.packed hg hT hmark⟩

theorem under (hp : p.Exact g tokens) (hg : g.Unmarked)
    (hT : ∀ t ∈ tokens, g.isNonterminal t = false) (hx : p.forest.key? x = some key)
    (hmark : key.label ≠ .symbol Grammar.startMark) (h : p.forest.Child x y) :
    ∃ key', p.forest.key? y = some key' ∧ Under g tokens key key' := by
  obtain ⟨c, hc, hy⟩ := h
  obtain ⟨l?, r, hnames, hpacked⟩ := hp.packed hg hT hx hmark hc
  obtain ⟨key', hkey, hchild⟩ := hnames.child hy
  exact ⟨key', hkey, l?, r, hpacked, hchild⟩

theorem transGen_under (hp : p.Exact g tokens) (hg : g.Unmarked)
    (hT : ∀ t ∈ tokens, g.isNonterminal t = false) (hx : p.forest.key? x = some key)
    (hmark : key.label ≠ .symbol Grammar.startMark) (h : Relation.TransGen p.forest.Child x y) :
    ∃ key', p.forest.key? y = some key' ∧ Relation.TransGen (Under g tokens) key key' := by
  induction h with
  | single h =>
    obtain ⟨key', hy, hu⟩ := hp.under hg hT hx hmark h
    exact ⟨key', hy, .single hu⟩
  | tail _ h ih =>
    obtain ⟨k, hk, hu⟩ := ih
    obtain ⟨b, -, hlast⟩ := Relation.TransGen.tail'_iff.mp hu
    obtain ⟨key', hy, hu'⟩ := hp.under hg hT hk (hlast.label_ne hg) h
    exact ⟨key', hy, hu.tail hu'⟩

/-- What lies below a node has a key, and not that of the reserved symbol. -/
theorem exists_key (hp : p.Exact g tokens) (hg : g.Unmarked)
    (hT : ∀ t ∈ tokens, g.isNonterminal t = false) (hx : p.forest.key? x = some key)
    (hmark : key.label ≠ .symbol Grammar.startMark)
    (h : Relation.ReflTransGen p.forest.Child x y) :
    ∃ k, p.forest.key? y = some k ∧ k.label ≠ .symbol Grammar.startMark := by
  rcases Relation.reflTransGen_iff_eq_or_transGen.mp h with rfl | h
  · exact ⟨key, hx, hmark⟩
  · obtain ⟨k, hk, hu⟩ := hp.transGen_under hg hT hx hmark h
    obtain ⟨b, -, hlast⟩ := Relation.TransGen.tail'_iff.mp hu
    exact ⟨k, hk, hlast.label_ne hg⟩

/-- **The forest has no circle** below a node where no nonterminal derives itself. -/
theorem acyclic (hp : p.Exact g tokens) (hg : g.Unmarked)
    (hT : ∀ t ∈ tokens, g.isNonterminal t = false) (hacyc : g.Acyclic)
    (hx : p.forest.key? x = some key) (hmark : key.label ≠ .symbol Grammar.startMark)
    (h : Relation.ReflTransGen p.forest.Child x y) : ¬ Relation.TransGen p.forest.Child y y := by
  intro hcycle
  obtain ⟨k, hk, hkmark⟩ := hp.exists_key hg hT hx hmark h
  obtain ⟨k', hk', hu⟩ := hp.transGen_under hg hT hk hkmark hcycle
  obtain rfl : k = k' := Option.some.inj (hk.symm.trans hk')
  exact Under.irrefl hacyc k hu

end Parse.Exact

end Parsing
