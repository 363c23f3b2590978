/-
# Parse trees in a forest

In a forest a parse tree has up to two children at each node. A rule with one symbol
keeps its child; a longer rule has its last symbol on the right, and on the left a
node for the symbols before, which is taken apart in the same way until one symbol is
left. A rule without symbols has the empty leaf.

In this form the parse trees of a text are exactly the trees of keys whose families
the grammar calls for (`Tree.valid_bin`, `Bin.Valid.exists_tree`), different ones in
different form (`Tree.bin_inj`). Where every node is wide, such a tree is told by its
edges in the order of unpacking (`Bin.Valid.edges_inj`): at each node the first edge
says whether there are one or two children, for an only child ends where its node
does, and a left child ends before.

Key definitions: `Tree.bin`, `Row.front`, `Bin.Valid`, `Bin.IsTree`, `Bin.IsRow`.
Key theorems: `Tree.valid_bin`, `Bin.Valid.exists_tree`, `Tree.bin_inj`,
`Bin.Valid.edges_inj`.
-/
import Parsing.Proofs.Forest.Spelling
import Parsing.Proofs.Parse.Packing

namespace Parsing

/-! ### Up to two children -/

mutual

/-- The parse tree of a text from position `start` on, with up to two children at each node. -/
def Tree.bin : Tree → (start : Nat) → Bin
  | .leaf a, start => .leaf ⟨start, start + 1, .symbol a⟩
  | .node lhs .nil, start => .one ⟨start, start, .symbol lhs⟩ (.leaf ⟨start, start, .epsilon⟩)
  | .node lhs (.snoc .nil last), start =>
    .one ⟨start, start + last.yield.length, .symbol lhs⟩ (last.bin start)
  | .node lhs (.snoc (.snoc init x) last), start =>
    let mid := start + (Row.snoc init x).yield.length
    .two ⟨start, mid + last.yield.length, .symbol lhs⟩
      ((Row.snoc init x).front lhs [last.root] start) (last.bin mid)

/-- The first trees of a rule, of which more are to come. -/
def Row.front : Row → (lhs : Symbol) → (after : List Symbol) → (start : Nat) → Bin
  | .nil, _, _, start => .leaf ⟨start, start, .epsilon⟩
  | .snoc .nil x, _, _, start => x.bin start
  | .snoc (.snoc init x) last, lhs, after, start =>
    let mid := start + (Row.snoc init x).yield.length
    .two ⟨start, mid + last.yield.length,
        .front lhs (Row.snoc (.snoc init x) last).symbols after⟩
      ((Row.snoc init x).front lhs (last.root :: after) start) (last.bin mid)

end

theorem Tree.key_bin (t : Tree) (start : Nat) :
    (t.bin start).key = ⟨start, start + t.yield.length, .symbol t.root⟩ := by
  cases t with
  | leaf a => simp [bin, Bin.key, yield, root]
  | node lhs row =>
    cases row with
    | nil => simp [bin, Bin.key, yield, Row.yield, root]
    | snoc init last =>
      cases init with
      | nil => simp [bin, Bin.key, yield, Row.yield, root]
      | snoc init x => simp [bin, Bin.key, yield, Row.yield, root, Nat.add_assoc]

theorem Row.key_front {row : Row} (h : row ≠ .nil) (lhs : Symbol) (after : List Symbol)
    (start : Nat) : (row.front lhs after start).key =
      ⟨start, start + row.yield.length, .front lhs row.symbols after⟩ := by
  cases row with
  | nil => exact absurd rfl h
  | snoc init last =>
    cases init with
    | nil => simp [front, Tree.key_bin, yield, symbols, Label.front]
    | snoc init x => simp [front, Bin.key, yield, symbols, Nat.add_assoc]

theorem Tree.stop_bin {j k i : Nat} {label : Label} (t : Tree)
    (h : (t.bin j).key = ⟨k, i, label⟩) : j + t.yield.length = i := by
  rw [t.key_bin] at h
  exact congrArg NodeKey.stop h

theorem Row.stop_front {j k i : Nat} {label : Label} {lhs : Symbol} {after : List Symbol}
    (row : Row) (hrow : row ≠ .nil) (h : (row.front lhs after j).key = ⟨k, i, label⟩) :
    j + row.yield.length = i := by
  rw [row.key_front hrow] at h
  exact congrArg NodeKey.stop h

/-- Behind several symbols stands a node for the unfinished rule. -/
theorem Label.front_concat {lhs s : Symbol} {before after : List Symbol} (h : before ≠ []) :
    Label.front lhs (before ++ [s]) after = .item (.dotted lhs (before ++ [s]) after) := by
  unfold front
  split
  · next s' e =>
    have hlen := congrArg List.length e
    have hpos := List.length_pos_iff.mpr h
    simp only [List.length_append, List.length_singleton] at hlen
    omega
  · rfl

theorem Row.symbols_snoc_ne_nil (init : Row) (last : Tree) : (Row.snoc init last).symbols ≠ [] := by
  simp [symbols]

/-! ### Different trees -/

/-- A row of several trees has an item at its root, and a tree has a symbol there. -/
theorem Row.front_ne_bin {lhs : Symbol} {after : List Symbol} {start : Nat} (init : Row)
    (x last tree : Tree) :
    (Row.snoc (.snoc init x) last).front lhs after start ≠ tree.bin start := by
  intro h
  have hlabel := congrArg NodeKey.label (congrArg Bin.key h)
  rw [Row.key_front (by simp), Tree.key_bin, Row.symbols_snoc,
    Label.front_concat (Row.symbols_snoc_ne_nil init x)] at hlabel
  cases hlabel

mutual

/-- **Different parse trees differ in this form too.** -/
theorem Tree.bin_inj : ∀ (t t' : Tree) (start : Nat), t.bin start = t'.bin start → t = t'
  | .leaf a, t', start, h => by
    have hkey := congrArg Bin.key h
    rw [Tree.key_bin, Tree.key_bin] at hkey
    cases t' with
    | leaf b =>
      simp only [Tree.root, NodeKey.mk.injEq, Label.symbol.injEq] at hkey
      rw [hkey.2.2]
    | node lhs row =>
      rcases row with _ | ⟨_ | _, _⟩ <;> simp [Tree.bin] at h
  | .node lhs .nil, t', start, h => by
    rcases t' with _ | ⟨lhs', _ | ⟨_ | _, last⟩⟩
    · simp [Tree.bin] at h
    · simp only [Tree.bin, Bin.one.injEq, NodeKey.mk.injEq, Label.symbol.injEq] at h
      rw [h.1.2.2]
    · have hkey := congrArg Bin.key (Bin.one.inj h).2
      rw [Tree.key_bin] at hkey
      simp [Bin.key] at hkey
    · simp [Tree.bin] at h
  | .node lhs (.snoc .nil last), t', start, h => by
    rcases t' with _ | ⟨lhs', _ | ⟨_ | _, last'⟩⟩
    · simp [Tree.bin] at h
    · have hkey := congrArg Bin.key (Bin.one.inj h).2
      rw [Tree.key_bin] at hkey
      simp [Bin.key] at hkey
    · obtain ⟨hkey, hlast⟩ := Bin.one.inj h
      simp only [NodeKey.mk.injEq, Label.symbol.injEq] at hkey
      rw [hkey.2.2, Tree.bin_inj last last' start hlast]
    · simp [Tree.bin] at h
  | .node lhs (.snoc (.snoc init x) last), t', start, h => by
    rcases t' with _ | ⟨lhs', _ | ⟨_ | ⟨init', x'⟩, last'⟩⟩
    · simp [Tree.bin] at h
    · simp [Tree.bin] at h
    · simp [Tree.bin] at h
    · obtain ⟨hkey, hfront, hlast⟩ := Bin.two.inj h
      simp only [NodeKey.mk.injEq, Label.symbol.injEq] at hkey
      have hlkey := congrArg Bin.key hlast
      simp only [Tree.key_bin, NodeKey.mk.injEq, Label.symbol.injEq] at hlkey
      obtain ⟨hmid, -, hroot⟩ := hlkey
      rw [hkey.2.2] at hfront ⊢
      rw [← hroot] at hfront
      rw [← hmid] at hlast
      have hinit := Row.front_inj (.snoc init x) (.snoc init' x') lhs' [last.root] start
        (by simp) (by simp) hfront
      rw [hinit, Tree.bin_inj last last' _ hlast]

theorem Row.front_inj : ∀ (row row' : Row) (lhs : Symbol) (after : List Symbol) (start : Nat),
    row ≠ .nil → row' ≠ .nil → row.front lhs after start = row'.front lhs after start → row = row'
  | .nil, _, _, _, _, hne, _, _ => absurd rfl hne
  | .snoc .nil x, row', lhs, after, start, _, hne', h => by
    rcases row' with _ | ⟨_ | ⟨init', x'⟩, last'⟩
    · exact absurd rfl hne'
    · rw [Tree.bin_inj x last' start h]
    · exact absurd h.symm (Row.front_ne_bin init' x' last' x)
  | .snoc (.snoc init x) last, row', lhs, after, start, _, hne', h => by
    rcases row' with _ | ⟨_ | ⟨init', x'⟩, last'⟩
    · exact absurd rfl hne'
    · exact absurd h (Row.front_ne_bin init x last last')
    · obtain ⟨-, hfront, hlast⟩ := Bin.two.inj h
      have hlkey := congrArg Bin.key hlast
      simp only [Tree.key_bin, NodeKey.mk.injEq, Label.symbol.injEq] at hlkey
      obtain ⟨hmid, -, hroot⟩ := hlkey
      rw [← hroot] at hfront
      rw [← hmid] at hlast
      have hinit := Row.front_inj (.snoc init x) (.snoc init' x') lhs (last.root :: after) start
        (by simp) (by simp) hfront
      rw [hinit, Tree.bin_inj last last' _ hlast]

end

/-! ### Trees that the grammar calls for -/

/-- Whether all families in the tree are those that the grammar calls for, and it ends in leaves
of the text. -/
def Bin.Valid (g : Grammar) (tokens : List Symbol) : Bin → Prop
  | leaf key => Leaf tokens key
  | one key b => Packed g tokens key none b.key ∧ b.Valid g tokens
  | two key left right => Packed g tokens key (some left.key) right.key ∧
      left.Valid g tokens ∧ right.Valid g tokens

section

variable {g : Grammar} {tokens : List Symbol}

mutual

/-- **Parse trees of the text are trees that the grammar calls for.** -/
theorem Tree.valid_bin : ∀ (t : Tree) (start : Nat), t.Valid g.rules →
    start + t.yield.length ≤ tokens.length →
    stretch tokens start (start + t.yield.length) = t.yield → (t.bin start).Valid g tokens
  | .leaf a, start, _, _, ht => .inr ⟨start, a, getElem?_of_stretch ht, rfl⟩
  | .node lhs .nil, start, h, _, _ => ⟨.empty h.1, .inl ⟨start, rfl⟩⟩
  | .node lhs (.snoc .nil last), start, h, hlen, ht => by
    rw [Tree.yield_node, Row.yield_snoc, Row.yield, List.nil_append] at hlen ht
    refine ⟨?_, last.valid_bin start h.2.2 hlen ht⟩
    rw [Tree.key_bin]
    refine .unit h.1 ?_
    rw [ht]
    exact last.derives h.2.2
  | .node lhs (.snoc (.snoc init x) last), start, h, hlen, ht => by
    obtain ⟨hr, hinit, hlast⟩ := h
    rw [Tree.yield_node, Row.yield_snoc, List.length_append, ← Nat.add_assoc] at hlen ht
    obtain ⟨hmid, ht₁, ht₂⟩ := stretch_eq_append (by omega) hlen ht
    refine ⟨?_, (Row.snoc init x).valid_front start hinit (by simp) (by simp) ?_ (by omega) ht₁,
      last.valid_bin _ hlast hlen ht₂⟩
    · rw [Row.key_front (by simp), Tree.key_bin]
      refine .rule hr (Row.symbols_snoc_ne_nil init x) (by omega) (by omega) ?_ ?_
      · rw [ht₁]
        exact (Row.snoc init x).derives hinit
      · rw [ht₂]
        exact last.derives hlast
    · exact hr

theorem Row.valid_front : ∀ (row : Row) (start : Nat) {lhs : Symbol} {after : List Symbol},
    row.Valid g.rules → row ≠ .nil → after ≠ [] → (⟨lhs, row.symbols ++ after⟩ : Rule) ∈ g.rules →
    start + row.yield.length ≤ tokens.length →
    stretch tokens start (start + row.yield.length) = row.yield →
    (row.front lhs after start).Valid g tokens
  | .nil, _, _, _, _, hne, _, _, _, _ => absurd rfl hne
  | .snoc .nil x, start, lhs, after, h, _, _, _, hlen, ht => x.valid_bin start h.2 hlen ht
  | .snoc (.snoc init x) last, start, lhs, after, h, _, ha, hr, hlen, ht => by
    obtain ⟨hinit, hlast⟩ := h
    rw [Row.yield_snoc, List.length_append, ← Nat.add_assoc] at hlen ht
    obtain ⟨hmid, ht₁, ht₂⟩ := stretch_eq_append (by omega) hlen ht
    rw [Row.symbols_snoc, List.append_assoc, List.singleton_append] at hr
    refine ⟨?_, (Row.snoc init x).valid_front start hinit (by simp) (by simp) hr (by omega) ht₁,
      last.valid_bin _ hlast hlen ht₂⟩
    rw [Row.key_front (by simp), Tree.key_bin, Row.symbols_snoc,
      Label.front_concat (Row.symbols_snoc_ne_nil init x)]
    refine .part hr (Row.symbols_snoc_ne_nil init x) ha (by omega) (by omega) ?_ ?_
    · rw [ht₁]
      exact (Row.snoc init x).derives hinit
    · rw [ht₂]
      exact last.derives hlast

end

theorem Item.dotted_inj {A B : Symbol} {u u' v v' : List Symbol}
    (h : Item.dotted A u v = .dotted B u' v') : A = B ∧ u = u' ∧ v = v' := by
  have hlhs : A = B := congrArg Item.lhs h
  have hdot : u.length = u'.length := congrArg Item.dot h
  have hrhs : u ++ v = u' ++ v' := congrArg (fun it => it.rule.rhs) h
  exact ⟨hlhs, List.append_inj hrhs hdot⟩

theorem Bin.Valid.eq_leaf {b : Bin} (hb : b.Valid g tokens) (h : b.key.label = .epsilon) :
    b = .leaf b.key := by
  cases b with
  | leaf key => rfl
  | one key b =>
    obtain ⟨hp, -⟩ := hb
    have h : key.label = .epsilon := h
    generalize b.key = k at hp
    cases hp <;> cases h
  | two key left right =>
    obtain ⟨hp, -⟩ := hb
    have h : key.label = .epsilon := h
    generalize some left.key = left? at hp
    generalize right.key = k at hp
    cases hp <;> cases h

/-- Whether the tree is a parse tree, if its root is a symbol. -/
def Bin.IsTree (g : Grammar) (tokens : List Symbol) (b : Bin) : Prop :=
  ∀ j i A, b.key = ⟨j, i, .symbol A⟩ →
    ∃ t : Tree, t.Valid g.rules ∧ t.root = A ∧ t.yield = stretch tokens j i ∧ t.bin j = b

/-- Whether the tree is a row of parse trees, if its root stands for the first symbols of a rule. -/
def Bin.IsRow (g : Grammar) (tokens : List Symbol) (b : Bin) : Prop :=
  ∀ j i lhs before after, before ≠ [] → b.key = ⟨j, i, .front lhs before after⟩ →
    ∃ row : Row, row ≠ .nil ∧ row.Valid g.rules ∧ row.symbols = before ∧
      row.yield = stretch tokens j i ∧ row.front lhs after j = b

/-- A single symbol stands for itself, so only the items make a row more than a tree. -/
theorem Bin.IsTree.isRow {b : Bin} (h : b.IsTree g tokens)
    (hitem : ∀ j i lhs before X after, before ≠ [] →
      b.key = ⟨j, i, .item (.dotted lhs (before ++ [X]) after)⟩ →
      ∃ row : Row, row ≠ .nil ∧ row.Valid g.rules ∧ row.symbols = before ++ [X] ∧
        row.yield = stretch tokens j i ∧ row.front lhs after j = b) : b.IsRow g tokens := by
  intro j i lhs before after hne hkey
  obtain ⟨init, X, rfl⟩ := (List.eq_nil_or_concat' before).resolve_left hne
  by_cases hinit : init = []
  · subst hinit
    obtain ⟨t, hv, hroot, hyield, hbin⟩ := h j i X hkey
    exact ⟨.snoc .nil t, by simp, ⟨trivial, hv⟩, by simp [Row.symbols, hroot],
      by simpa [Row.yield] using hyield, hbin⟩
  · rw [Label.front_concat hinit] at hkey
    exact hitem j i lhs init X after hinit hkey

theorem Bin.isTree_leaf (hT : ∀ t ∈ tokens, g.isNonterminal t = false) {key : NodeKey}
    (h : Leaf tokens key) : (Bin.leaf key).IsTree g tokens := by
  intro j i A hkey
  obtain rfl : key = ⟨j, i, .symbol A⟩ := hkey
  have hvalid := h.rule_lhs_ne hT rfl
  rcases h with ⟨k, hk⟩ | ⟨k, a, ha, hk⟩
  · cases hk
  · cases hk
    exact ⟨.leaf A, hvalid, rfl, (stretch_single ha).symm, rfl⟩

theorem Bin.isTree_one {key : NodeKey} {b : Bin} (hp : Packed g tokens key none b.key)
    (hb : b.Valid g tokens) (ih : b.IsTree g tokens) : (Bin.one key b).IsTree g tokens := by
  intro j i A hkey
  obtain rfl : key = ⟨j, i, .symbol A⟩ := hkey
  generalize hbkey : b.key = k at hp
  cases hp with
  | empty hr =>
    have hleaf := hb.eq_leaf (by rw [hbkey])
    refine ⟨.node A .nil, ⟨hr, trivial⟩, rfl, by simp [Tree.yield, Row.yield], ?_⟩
    rw [hleaf, hbkey]
    rfl
  | @unit _ X _ _ hr hX =>
    obtain ⟨t, hv, rfl, hyield, rfl⟩ := ih j i X hbkey
    refine ⟨.node A (.snoc .nil t), ⟨hr, trivial, hv⟩, rfl, ?_, ?_⟩
    · simpa [Tree.yield, Row.yield] using hyield
    · rw [Tree.bin, t.stop_bin hbkey]

/-- An only child stands below a symbol. -/
theorem Packed.label_ne_item {key right : NodeKey} (h : Packed g tokens key none right)
    (it : Item) : key.label ≠ .item it := by
  cases h <;> exact Label.noConfusion

theorem Bin.isTree_two {key : NodeKey} {left right : Bin}
    (hp : Packed g tokens key (some left.key) right.key) (hl : left.IsRow g tokens)
    (hr : right.IsTree g tokens) : (Bin.two key left right).IsTree g tokens := by
  intro j i A hkey
  obtain rfl : key = ⟨j, i, .symbol A⟩ := hkey
  generalize hlkey : some left.key = l? at hp
  generalize hrkey : right.key = r at hp
  cases hp with
  | empty | unit => cases hlkey
  | @rule _ X before _ k _ hrule hne hjk hki hbefore hX =>
    obtain ⟨row, hrow, hvrow, rfl, hyrow, rfl⟩ := hl j k A before [X] hne (Option.some.inj hlkey)
    obtain ⟨t, hv, rfl, hyield, rfl⟩ := hr k i X hrkey
    have hmid := row.stop_front hrow (Option.some.inj hlkey)
    refine ⟨.node A (.snoc row t), ⟨hrule, hvrow, hv⟩, rfl, ?_, ?_⟩
    · rw [Tree.yield, Row.yield, hyrow, hyield, stretch_append hjk hki]
    · cases row with
      | nil => exact absurd rfl hrow
      | snoc init x => rw [Tree.bin, hmid, t.stop_bin hrkey]

theorem Bin.isRow_two {key : NodeKey} {left right : Bin}
    (hp : Packed g tokens key (some left.key) right.key) (hl : left.IsRow g tokens)
    (hr : right.IsTree g tokens) : (Bin.two key left right).IsRow g tokens := by
  refine (Bin.isTree_two hp hl hr).isRow fun j i lhs before X after hbefore hkey => ?_
  obtain rfl : key = ⟨j, i, .item (.dotted lhs (before ++ [X]) after)⟩ := hkey
  generalize hlkey : some left.key = l? at hp
  generalize hrkey : right.key = r at hp
  generalize hit : Item.dotted lhs (before ++ [X]) after = it at hp
  cases hp with
  | @part A X' before' after' _ k _ _ hne ha hjk hki hbefore' hX =>
    obtain ⟨rfl, hsym, rfl⟩ := Item.dotted_inj hit
    obtain ⟨rfl, hX'⟩ := List.append_inj' hsym rfl
    obtain rfl : X = X' := List.singleton_inj.mp hX'
    obtain ⟨row, hrow, hvrow, rfl, hyrow, rfl⟩ :=
      hl j k lhs before (X :: after) hne (Option.some.inj hlkey)
    obtain ⟨t, hv, rfl, hyield, rfl⟩ := hr k i X hrkey
    have hmid := row.stop_front hrow (Option.some.inj hlkey)
    refine ⟨.snoc row t, by simp, ⟨hvrow, hv⟩, rfl, ?_, ?_⟩
    · rw [Row.yield, hyrow, hyield, stretch_append hjk hki]
    · cases row with
      | nil => exact absurd rfl hrow
      | snoc init x =>
        rw [Row.front, hmid, t.stop_bin hrkey, Row.symbols_snoc, Label.front_concat hbefore]

/-- **Trees that the grammar calls for are parse trees of the text.** A tree at a symbol is a
parse tree, and a tree at the first symbols of a rule is a row of them. -/
theorem Bin.Valid.exists_tree (hT : ∀ t ∈ tokens, g.isNonterminal t = false) {b : Bin}
    (hb : b.Valid g tokens) : b.IsTree g tokens ∧ b.IsRow g tokens := by
  induction b with
  | leaf key =>
    have htree := Bin.isTree_leaf hT hb
    exact ⟨htree, htree.isRow fun j i lhs before X after _ hkey =>
      absurd (congrArg NodeKey.label hkey) (hb.label_ne_item _)⟩
  | one key b ih =>
    have htree := Bin.isTree_one hb.1 hb.2 (ih hb.2).1
    exact ⟨htree, htree.isRow fun j i lhs before X after _ hkey =>
      absurd (congrArg NodeKey.label hkey) (hb.1.label_ne_item _)⟩
  | two key left right ihl ihr =>
    have hl := (ihl hb.2.1).2
    have hr := (ihr hb.2.2).1
    exact ⟨Bin.isTree_two hb.1 hl hr, Bin.isRow_two hb.1 hl hr⟩

/-! ### Trees and their edges -/

/-- Symbols derive at least one token each where no rule is empty. -/
theorem Derives.length_add_le (heps : ∀ r ∈ g.rules, r.rhs ≠ []) {u : List Symbol} {j i : Nat}
    (hu : u ≠ []) (h : Derives g.rules u (stretch tokens j i)) : u.length + j ≤ i := by
  have hle := h.length_le heps
  have hpos := List.length_pos_iff.mpr hu
  have hlen : (stretch tokens j i).length ≤ i - j := by
    rw [stretch, List.length_drop, List.length_take]
    omega
  omega

theorem Derives.lt_of_stretch (heps : ∀ r ∈ g.rules, r.rhs ≠ []) {u : List Symbol} {j i : Nat}
    (hu : u ≠ []) (h : Derives g.rules u (stretch tokens j i)) : j < i := by
  have hle := h.length_add_le heps hu
  have hpos := List.length_pos_iff.mpr hu
  omega

theorem Packed.left_stop_lt (heps : ∀ r ∈ g.rules, r.rhs ≠ []) {key left right : NodeKey}
    (h : Packed g tokens key (some left) right) : left.stop < key.stop := by
  cases h with
  | rule _ _ _ _ _ hX | part _ _ _ _ _ _ hX => exact hX.lt_of_stretch heps (by simp)

theorem Packed.right_stop {key right : NodeKey} {left? : Option NodeKey}
    (h : Packed g tokens key left? right) : right.stop = key.stop := by
  cases h <;> rfl

/-- **A tree is told by its edges** where no rule is empty. -/
theorem Bin.Valid.edges_inj (hT : ∀ t ∈ tokens, g.isNonterminal t = false)
    (heps : ∀ r ∈ g.rules, r.rhs ≠ []) {b b' : Bin} (hb : b.Valid g tokens)
    (hb' : b'.Valid g tokens) (hkey : b.key = b'.key) {r r' : List (NodeKey × NodeKey)}
    (h : b.edges ++ r = b'.edges ++ r') : b = b' ∧ r = r' := by
  induction b generalizing b' r r' with
  | leaf key =>
    cases b' with
    | leaf key' =>
      obtain rfl : key = key' := hkey
      exact ⟨rfl, h⟩
    | one key' c | two key' left right =>
      obtain rfl : key = key' := hkey
      exact absurd hb (hb'.1.not_leaf hT)
  | one key c ih =>
    cases b' with
    | leaf key' =>
      obtain rfl : key = key' := hkey
      exact absurd hb' (hb.1.not_leaf hT)
    | one key' c' =>
      obtain rfl : key = key' := hkey
      simp only [edges, List.cons_append, List.cons.injEq, Prod.mk.injEq, true_and] at h
      obtain ⟨rfl, hr⟩ := ih hb.2 hb'.2 h.1 h.2
      exact ⟨rfl, hr⟩
    | two key' left right =>
      obtain rfl : key = key' := hkey
      simp only [edges, List.cons_append, List.cons.injEq, Prod.mk.injEq, true_and] at h
      have hlt := hb'.1.left_stop_lt heps
      rw [← h.1, hb.1.right_stop] at hlt
      exact absurd hlt (Nat.lt_irrefl _)
  | two key left right ihl ihr =>
    cases b' with
    | leaf key' =>
      obtain rfl : key = key' := hkey
      exact absurd hb' (hb.1.not_leaf hT)
    | one key' c' =>
      obtain rfl : key = key' := hkey
      simp only [edges, List.cons_append, List.cons.injEq, Prod.mk.injEq, true_and] at h
      have hlt := hb.1.left_stop_lt heps
      rw [h.1, hb'.1.right_stop] at hlt
      exact absurd hlt (Nat.lt_irrefl _)
    | two key' left' right' =>
      obtain rfl : key = key' := hkey
      simp only [edges, List.cons_append, List.cons.injEq, Prod.mk.injEq, true_and,
        List.append_assoc] at h
      obtain ⟨hl, hr, hedges⟩ := h
      obtain ⟨rfl, hedges'⟩ := ihr hb.2.2 hb'.2.2 hr hedges
      obtain ⟨rfl, hrest⟩ := ihl hb.2.1 hb'.2.1 hl hedges'
      exact ⟨rfl, hrest⟩

end

end Parsing
