/-
# As many derivations as parse trees

Each derivation taken out of the forest of a parse follows a parse tree of the tokens, and no
two follow the same one. There are as many of them as there are parse trees exactly when no
derivation enters twice a node at which several trees are spelled
(`Parse.Exact.hasParses_iff`). Where no nonterminal derives itself, nodes of positive width
are entered once, so this can only fail at nodes of the empty text, and it does not fail if no
symbol has two parse trees of the empty text.

It does fail with the rules `S -> A A b`, `A -> B`, `A -> C`, `B ->` and `C ->`. The text `b`
has four parse trees, but what a derivation has chosen at the first `A` is gone at the second,
and only the two trees with different choices are found.

Key definitions: `Grammar.HasParses`, `PartialTree.Follows`.
Key theorems: `Parse.Exact.grounded`, `Parse.Exact.hasParses_iff`,
`Grammar.parse_hasParses_iff`.
-/
import Parsing.Proofs.Forest.Following
import Parsing.Proofs.Parse.Enumeration
import Parsing.Proofs.Parse.First

namespace Parsing

/-- Whether the tokens have exactly `n` parse trees. -/
def Grammar.HasParses (g : Grammar) (tokens : List Symbol) (n : Nat) : Prop :=
  ∃ ts : List Tree, ts.Nodup ∧ (∀ tree, tree ∈ ts ↔ g.IsParse tokens tree) ∧ ts.length = n

/-- Whether the derivation makes the choices of the parse tree, wherever a node has any left. -/
def PartialTree.Follows (f : Forest) (root : NodeId) (t : PartialTree) (tree : Tree) : Prop :=
  Parsing.Follows f [] [root] [tree.bin 0] t.applied.reverse

/-! ### Counting by a relation -/

/-- If each of finitely many things is related to something, and different ones to different
ones, then there are as many of the latter exactly when the two are one to one. -/
theorem exists_complete_iff {α β : Type} {P : β → Prop} {R : α → β → Prop} {as : List α}
    (has : as.Nodup) (htotal : ∀ a ∈ as, ∃ b, P b ∧ R a b)
    (hinj : ∀ a ∈ as, ∀ a' ∈ as, ∀ b, R a b → R a' b → a = a') :
    (∃ bs : List β, bs.Nodup ∧ (∀ b, b ∈ bs ↔ P b) ∧ bs.length = as.length) ↔
      (∀ b, P b → ∃ a ∈ as, R a b) ∧
        ∀ a ∈ as, ∀ b b', P b → P b' → R a b → R a b' → b = b' := by
  choose image hP hR using htotal
  -- one thing for each, all different
  obtain ⟨bs₀, hbs₀⟩ : ∃ bs₀, bs₀ = as.pmap image fun _ h => h := ⟨_, rfl⟩
  have hmem : ∀ b, b ∈ bs₀ ↔ ∃ a, ∃ h : a ∈ as, image a h = b := by
    intro b
    rw [hbs₀, List.mem_pmap]
  have hnodup : bs₀.Nodup := by
    rw [hbs₀]
    refine has.pmap fun a ha a' ha' e => ?_
    exact hinj a ha a' ha' _ (hR a ha) (e ▸ hR a' ha')
  have hlen : bs₀.length = as.length := by rw [hbs₀, List.length_pmap]
  constructor
  · rintro ⟨bs, hbs, hall, heq⟩
    have hsub : bs₀ ⊆ bs := by
      intro b hb
      obtain ⟨a, ha, rfl⟩ := (hmem b).mp hb
      exact (hall _).mpr (hP a ha)
    have hperm : bs₀.Perm bs :=
      (List.subperm_of_subset hnodup hsub).perm_of_length_le (by omega)
    have himage : ∀ b, P b → ∃ a, ∃ h : a ∈ as, image a h = b := fun b hb =>
      (hmem b).mp (hperm.mem_iff.mpr ((hall b).mpr hb))
    refine ⟨fun b hb => ?_, fun a ha b b' hb hb' h h' => ?_⟩
    · obtain ⟨a, ha, rfl⟩ := himage b hb
      exact ⟨a, ha, hR a ha⟩
    · have honly : ∀ b, P b → R a b → b = image a ha := by
        intro b hb h
        obtain ⟨d, hd, rfl⟩ := himage b hb
        obtain rfl := hinj a ha d hd _ h (hR d hd)
        rfl
      rw [honly b hb h, honly b' hb' h']
  · rintro ⟨hfound, hsingle⟩
    refine ⟨bs₀, hnodup, fun b => ?_, hlen⟩
    rw [hmem]
    constructor
    · rintro ⟨a, ha, rfl⟩
      exact hP a ha
    · intro hb
      obtain ⟨a, ha, h⟩ := hfound b hb
      exact ⟨a, ha, hsingle a ha _ _ (hP a ha) hb (hR a ha) h⟩

/-! ### Trees of the empty text -/

/-- Rows of the same symbols with empty yields are one where trees of the empty text are. -/
theorem Row.eq_of_yield_nil {rs : List Rule}
    (hone : ∀ t t' : Tree, t.Valid rs → t'.Valid rs → t.root = t'.root → t.yield = [] →
      t'.yield = [] → t = t') :
    ∀ row row' : Row, row.Valid rs → row'.Valid rs → row.symbols = row'.symbols →
      row.yield = [] → row'.yield = [] → row = row'
  | .nil, row', _, _, hs, _, _ => by
    cases row' with
    | nil => rfl
    | snoc => simp [Row.symbols] at hs
  | .snoc init last, row', hv, hv', hs, hy, hy' => by
    cases row' with
    | nil => simp [Row.symbols] at hs
    | snoc init' last' =>
      obtain ⟨hinit, hlast⟩ := List.append_inj' hs rfl
      obtain ⟨hyi, hyl⟩ := List.append_eq_nil_iff.mp hy
      obtain ⟨hyi', hyl'⟩ := List.append_eq_nil_iff.mp hy'
      rw [Row.eq_of_yield_nil hone init init' hv.1 hv'.1 hinit hyi hyi',
        hone last last' hv.2 hv'.2 (List.singleton_inj.mp hlast) hyl hyl']

variable {g : Grammar} {tokens : List Symbol}

/-- The item at the root of a tree stands for the first symbols of its rule. -/
theorem Bin.Valid.exists_front {b : Bin} (hb : b.Valid g tokens) {it : Item}
    (h : b.key.label = .item it) :
    ∃ lhs before after, before ≠ [] ∧ b.key.label = .front lhs before after := by
  cases b with
  | leaf key => exact absurd h (hb.label_ne_item it)
  | one key b => exact absurd h (hb.1.label_ne_item it)
  | two key left right =>
    obtain ⟨hp, -⟩ := hb
    change key.label = .item it at h
    change ∃ lhs before after, before ≠ [] ∧ key.label = .front lhs before after
    generalize some left.key = left? at hp
    generalize right.key = r at hp
    cases hp with
    | empty | unit | rule => cases h
    | @part A X before after j k i hr hne =>
      exact ⟨A, before ++ [X], after, by simp, (Label.front_concat hne).symm⟩

/-- A node of the empty text has one tree where symbols have. -/
theorem Bin.Valid.eq_of_empty (hT : ∀ t ∈ tokens, g.isNonterminal t = false)
    (hone : ∀ t t' : Tree, t.Valid g.rules → t'.Valid g.rules → t.root = t'.root → t.yield = [] →
      t'.yield = [] → t = t') {b b' : Bin} (hb : b.Valid g tokens) (hb' : b'.Valid g tokens)
    (hkey : b.key = b'.key) (hempty : b.key.stop = b.key.start) : b = b' := by
  obtain ⟨⟨j, i, label⟩, hk⟩ : ∃ key, b.key = key := ⟨_, rfl⟩
  obtain rfl : i = j := by rw [hk] at hempty; exact hempty
  have hk' := hkey.symm.trans hk
  cases hlabel : label with
  | symbol A =>
    rw [hlabel] at hk hk'
    obtain ⟨t, hv, hroot, hyield, rfl⟩ := (hb.exists_tree hT).1 i i A hk
    obtain ⟨t', hv', hroot', hyield', rfl⟩ := (hb'.exists_tree hT).1 i i A hk'
    rw [stretch_self] at hyield hyield'
    rw [hone t t' hv hv' (hroot.trans hroot'.symm) hyield hyield']
  | item it =>
    have hitem : b.key.label = .item it := by rw [hk, hlabel]
    obtain ⟨lhs, before, after, hne, hfront⟩ := hb.exists_front hitem
    rw [hk] at hfront
    obtain rfl : label = .front lhs before after := hfront
    obtain ⟨row, hrow, hv, hsym, hyield, rfl⟩ := (hb.exists_tree hT).2 i i lhs before after hne hk
    obtain ⟨row', hrow', hv', hsym', hyield', rfl⟩ :=
      (hb'.exists_tree hT).2 i i lhs before after hne hk'
    rw [stretch_self] at hyield hyield'
    rw [Row.eq_of_yield_nil hone row row' hv hv' (hsym.trans hsym'.symm) hyield hyield']
  | epsilon =>
    rw [hb.eq_leaf (by rw [hk, hlabel]), hb'.eq_leaf (by rw [hk', hlabel]), hkey]

/-! ### In the forest of a parse -/

namespace Parse.Exact

variable {p : Parse} {root id : NodeId} {key : NodeKey} {b : Bin} {t t' : PartialTree}
  {tree tree' : Tree}

section

variable (hp : p.Exact g tokens) (hg : g.Unmarked) (hT : ∀ t ∈ tokens, g.isNonterminal t = false)
  (hroot : p.root? = some root)
include hp hg hT hroot

/-- **At each node below the root a tree is spelled**: the one of first families is finite, as
their children were created before their nodes. -/
theorem grounded : p.forest.Grounded root := by
  intro x hx
  induction x using Nat.strongRecOn with
  | _ x ih =>
    obtain ⟨key, hkey, -⟩ := hp.exists_key hg hT (hp.root root hroot) hg.label_start_ne hx
    cases hall : p.forest.choicesAt x with
    | nil => exact ⟨.leaf key, [], .leaf hkey hall⟩
    | cons c others =>
      have hc : c ∈ p.forest.choicesAt x := hall ▸ List.mem_cons_self
      have hchildren : ∀ y ∈ c.children, ∃ b, p.forest.Spelled b y := by
        intro y hy
        have hbelow := hx.tail ⟨c, hc, hy⟩
        rcases hp.lt_or_epsilon hg hT hroot hx hall hy with hlt | ⟨k, hk, hlabel⟩
        · exact ih y hlt hbelow
        · refine ⟨.leaf k, [], .leaf hk (List.eq_nil_iff_forall_not_mem.mpr fun d hd => ?_)⟩
          obtain ⟨l?, r, -, hpacked⟩ := hp.packed hg hT hk (by simp [hlabel]) hd
          cases hpacked <;> cases hlabel
      obtain ⟨bs, hbs⟩ := Forest.exists_forall₂ hchildren
      obtain ⟨b, l, hb, -⟩ := Spells.of_parts hkey hc hbs
      exact ⟨b, _, hb⟩

/-- The trees spelled at the root are the parse trees of the tokens. -/
theorem spelled_root_iff :
    p.forest.Spelled b root ↔ ∃ tree, g.IsParse tokens tree ∧ tree.bin 0 = b := by
  have hkey := hp.root root hroot
  constructor
  · rintro ⟨l, hb⟩
    have hbkey := Option.some.inj (hb.key?_eq.symm.trans hkey)
    have hvalid := hp.valid_of_spells hg hT hb (hbkey ▸ hg.label_start_ne)
    exact Grammar.IsParse.of_valid hT hvalid hbkey
  · rintro ⟨tree, htree, rfl⟩
    exact hp.exists_spells hg hT htree.valid_bin (by rw [htree.key_bin]; exact hkey)
      (htree.key_bin ▸ hg.label_start_ne)

/-- **Each derivation follows a parse tree.** -/
theorem exists_followed (ht : t ∈ p.forest.trees root) :
    ∃ tree, g.IsParse tokens tree ∧ t.Follows p.forest root tree := by
  obtain ⟨l, hl, rfl⟩ := Forest.mem_trees_iff.mp ht
  obtain ⟨bs, hbs⟩ := hl.exists_follows fun y hy => by
    rw [List.mem_singleton.mp hy]
    exact hp.grounded hg hT hroot
  obtain ⟨b, _, hb, hnil, rfl⟩ := List.forall₂_cons_right_iff.mp hbs.spelled
  cases hnil
  obtain ⟨tree, htree, rfl⟩ := (hp.spelled_root_iff hg hT hroot).mp hb
  refine ⟨tree, htree, ?_⟩
  rwa [PartialTree.Follows, List.reverse_reverse]

omit hg hT hroot in
/-- **No two derivations follow one parse tree.** -/
theorem eq_of_follows (ht : t ∈ p.forest.trees root) (ht' : t' ∈ p.forest.trees root)
    (h : t.Follows p.forest root tree) (h' : t'.Follows p.forest root tree) : t = t' := by
  obtain ⟨l, hl, rfl⟩ := Forest.mem_trees_iff.mp ht
  obtain ⟨l', hl', rfl⟩ := Forest.mem_trees_iff.mp ht'
  rw [PartialTree.Follows, List.reverse_reverse] at h h'
  rw [h.unique hp.forest.valid h']

/-- Derivations and parse trees are one to one when the forest matches them. -/
theorem matches_iff : p.forest.Matches (.ofRoot root) ↔
    (∀ tree, g.IsParse tokens tree → ∃ t ∈ p.forest.trees root, t.Follows p.forest root tree) ∧
      ∀ t ∈ p.forest.trees root, ∀ tree tree', g.IsParse tokens tree → g.IsParse tokens tree' →
        t.Follows p.forest root tree → t.Follows p.forest root tree' → tree = tree' := by
  have htrees : ∀ {bs}, List.Forall₂ p.forest.Spelled bs [root] →
      ∃ tree, g.IsParse tokens tree ∧ bs = [tree.bin 0] := by
    intro bs hbs
    obtain ⟨b, _, hb, hnil, rfl⟩ := List.forall₂_cons_right_iff.mp hbs
    cases hnil
    obtain ⟨tree, htree, rfl⟩ := (hp.spelled_root_iff hg hT hroot).mp hb
    exact ⟨tree, htree, rfl⟩
  constructor
  · rintro ⟨hfollowed, hsingle⟩
    refine ⟨fun tree htree => ?_, fun t ht tree tree' _ _ h h' => ?_⟩
    · have hb := (hp.spelled_root_iff hg hT hroot).mpr ⟨tree, htree, rfl⟩
      obtain ⟨l, hl⟩ := hfollowed [tree.bin 0] (.cons hb .nil)
      refine ⟨⟨l.reverse, []⟩, Forest.mem_trees_iff.mpr ⟨l, hl.unfolds, rfl⟩, ?_⟩
      rw [PartialTree.Follows, List.reverse_reverse]
      exact hl
    · have hbin := List.singleton_inj.mp (hsingle _ _ _ h h')
      exact Tree.bin_inj tree tree' 0 hbin
  · rintro ⟨hfollowed, hsingle⟩
    refine ⟨fun bs hbs => ?_, fun bs bs' l h h' => ?_⟩
    · obtain ⟨tree, htree, rfl⟩ := htrees hbs
      obtain ⟨t, -, h⟩ := hfollowed tree htree
      exact ⟨_, h⟩
    · obtain ⟨tree, htree, rfl⟩ := htrees h.spelled
      obtain ⟨tree', htree', rfl⟩ := htrees h'.spelled
      have hl : Parsing.Follows p.forest [] [root] [tree.bin 0] l := h
      have ht : (⟨l.reverse, []⟩ : PartialTree) ∈ p.forest.trees root :=
        Forest.mem_trees_iff.mpr ⟨l, hl.unfolds, rfl⟩
      rw [← List.reverse_reverse l] at h h'
      rw [hsingle _ ht tree tree' htree htree' h h']

theorem hasParses_iff_one : g.HasParses tokens (p.forest.trees root).length ↔
    (∀ tree, g.IsParse tokens tree → ∃ t ∈ p.forest.trees root, t.Follows p.forest root tree) ∧
      ∀ t ∈ p.forest.trees root, ∀ tree tree', g.IsParse tokens tree → g.IsParse tokens tree' →
        t.Follows p.forest root tree → t.Follows p.forest root tree' → tree = tree' :=
  exists_complete_iff (Forest.nodup_completions p.forest (.ofRoot root))
    (fun _ ht => hp.exists_followed hg hT hroot ht)
    fun _ ht _ ht' _ h h' => hp.eq_of_follows ht ht' h h'

/-- **There are as many derivations as parse trees** exactly when no derivation enters twice a node
with several trees. -/
theorem hasParses_iff : g.HasParses tokens (p.forest.trees root).length ↔
    ∀ t ∈ p.forest.trees root, ∀ id, p.forest.Several id → (t.entered root).count id ≤ 1 := by
  have hground : ∀ y ∈ (PartialTree.ofRoot root).pending, p.forest.Grounded y := by
    intro y hy
    rw [List.mem_singleton.mp hy]
    exact hp.grounded hg hT hroot
  rw [hp.hasParses_iff_one hg hT hroot, ← hp.matches_iff hg hT hroot,
    Forest.matches_iff_apart hp.forest.valid _ hground (by simp [PartialTree.ofRoot])]
  constructor
  · intro h t ht id hid
    obtain ⟨l, hl, rfl⟩ := Forest.mem_trees_iff.mp ht
    rw [count_entered]
    simpa [PartialTree.ofRoot] using h l hl id hid
  · intro h l hl id hid
    have := h _ (Forest.mem_trees_iff.mpr ⟨l, hl, rfl⟩) id hid
    rw [count_entered] at this
    simpa [PartialTree.ofRoot] using this

/-- No node with several trees is entered twice where no nonterminal derives itself and no symbol
has two parse trees of the empty text. -/
theorem count_several_le_one (hacyc : g.Acyclic)
    (hone : ∀ t t' : Tree, t.Valid g.rules → t'.Valid g.rules → t.root = t'.root → t.yield = [] →
      t'.yield = [] → t = t') (ht : t ∈ p.forest.trees root) (hid : p.forest.Several id) :
    (t.entered root).count id ≤ 1 := by
  obtain ⟨l, hl, rfl⟩ := Forest.mem_trees_iff.mp ht
  rw [count_entered]
  obtain ⟨b, b', ⟨m, hb⟩, ⟨m', hb'⟩, hne⟩ := hid
  by_cases hmem : id ∈ root :: l.flatMap Choice.children
  · have hkey := hb.key?_eq
    rcases Nat.lt_or_ge b.key.start b.key.stop with hwide | hempty
    · exact hp.count_le_one_of_acyclic hg hT hacyc hroot hl (Forest.covers_start hkey hwide)
    · obtain ⟨k, hk, hmark⟩ := hp.exists_key hg hT (hp.root root hroot) hg.label_start_ne
        (hl.walks.descends hmem)
      obtain rfl : k = b.key := Option.some.inj (hk.symm.trans hkey)
      have hkey' : b.key = b'.key := Option.some.inj (hkey.symm.trans hb'.key?_eq)
      have hvalid := hp.valid_of_spells hg hT hb hmark
      have hvalid' := hp.valid_of_spells hg hT hb' (hkey' ▸ hmark)
      have hstop : b.key.stop = b.key.start :=
        Nat.le_antisymm hempty (hp.forest.valid.start_le hkey)
      exact absurd (hvalid.eq_of_empty hT hone hvalid' hkey' hstop) hne
  · rw [List.count_eq_zero.mpr hmem]
    exact Nat.zero_le 1

end

end Parse.Exact

/-- **When derivations are as many as parse trees.** Each derivation taken out of the forest of a
parse follows a parse tree of the tokens, and no two follow one. They are as many as the parse
trees exactly when no derivation enters twice a node at which several trees are spelled; then
each parse tree is followed by one derivation. It is so wherever no nonterminal derives itself
and no symbol has two parse trees of the empty text. -/
theorem Grammar.parse_hasParses_iff (hg : g.Unmarked) (hne : tokens ≠ [])
    (hT : ∀ t ∈ tokens, g.isNonterminal t = false) :
    ∃ p, g.parse tokens = .ok p ∧ ∀ root, p.root? = some root →
      (∀ n, (p.forest.take n [.ofRoot root]).1 = (p.forest.trees root).take n) ∧
      (∀ t ∈ p.forest.trees root, ∃ tree, g.IsParse tokens tree ∧ t.Follows p.forest root tree) ∧
      (∀ tree, ∀ t ∈ p.forest.trees root, ∀ t' ∈ p.forest.trees root,
        t.Follows p.forest root tree → t'.Follows p.forest root tree → t = t') ∧
      (g.HasParses tokens (p.forest.trees root).length ↔
        ∀ t ∈ p.forest.trees root, ∀ id, p.forest.Several id → (t.entered root).count id ≤ 1) ∧
      (g.HasParses tokens (p.forest.trees root).length → ∀ tree, g.IsParse tokens tree →
        ∃! t, t ∈ p.forest.trees root ∧ t.Follows p.forest root tree) ∧
      (g.Acyclic → (∀ t t' : Tree, t.Valid g.rules → t'.Valid g.rules → t.root = t'.root →
          t.yield = [] → t'.yield = [] → t = t') →
        g.HasParses tokens (p.forest.trees root).length) := by
  obtain ⟨p, hp, hexact⟩ := g.parse_spec hne
  refine ⟨p, hp, fun root hroot => ⟨fun n => p.forest.take_ofRoot n root, fun t ht => ?_,
    fun tree t ht t' ht' => hexact.eq_of_follows ht ht', hexact.hasParses_iff hg hT hroot,
    fun hcount tree htree => ?_, fun hacyc hone => ?_⟩⟩
  · exact hexact.exists_followed hg hT hroot ht
  · obtain ⟨t, ht, h⟩ := ((hexact.hasParses_iff_one hg hT hroot).mp hcount).1 tree htree
    exact ⟨t, ⟨ht, h⟩, fun t' h' => hexact.eq_of_follows h'.1 ht h'.2 h⟩
  · exact (hexact.hasParses_iff hg hT hroot).mpr fun t ht id hid =>
      hexact.count_several_le_one hg hT hroot hacyc hone ht hid

/-- The theorem at a grammar where derivations of `b` choose twice at one empty symbol. -/
theorem Grammar.parse_hasParses_iff_twice :
    let g := Grammar.ofRules "S"
      [⟨"S", ["A", "A", "b"]⟩, ⟨"A", ["B"]⟩, ⟨"A", ["C"]⟩, ⟨"B", []⟩, ⟨"C", []⟩]
    ∃ p, g.parse ["b"] = .ok p ∧ ∀ root, p.root? = some root →
      (∀ n, (p.forest.take n [.ofRoot root]).1 = (p.forest.trees root).take n) ∧
      (∀ t ∈ p.forest.trees root, ∃ tree, g.IsParse ["b"] tree ∧ t.Follows p.forest root tree) ∧
      (∀ tree, ∀ t ∈ p.forest.trees root, ∀ t' ∈ p.forest.trees root,
        t.Follows p.forest root tree → t'.Follows p.forest root tree → t = t') ∧
      (g.HasParses ["b"] (p.forest.trees root).length ↔
        ∀ t ∈ p.forest.trees root, ∀ id, p.forest.Several id → (t.entered root).count id ≤ 1) ∧
      (g.HasParses ["b"] (p.forest.trees root).length → ∀ tree, g.IsParse ["b"] tree →
        ∃! t, t ∈ p.forest.trees root ∧ t.Follows p.forest root tree) ∧
      (g.Acyclic → (∀ t t' : Tree, t.Valid g.rules → t'.Valid g.rules → t.root = t'.root →
          t.yield = [] → t'.yield = [] → t = t') →
        g.HasParses ["b"] (p.forest.trees root).length) :=
  Grammar.parse_hasParses_iff (by decide) (by decide) (by decide)

/-- There derivations are fewer than parse trees: a choice made at the first `A` is gone at the
second, though no nonterminal derives itself. -/
theorem Grammar.parse_not_hasParses :
    let g := Grammar.ofRules "S"
      [⟨"S", ["A", "A", "b"]⟩, ⟨"A", ["B"]⟩, ⟨"A", ["C"]⟩, ⟨"B", []⟩, ⟨"C", []⟩]
    g.Unmarked ∧ g.Acyclic ∧ (∀ t ∈ ["b"], g.isNonterminal t = false) ∧
      ∃ p root, g.parse ["b"] = .ok p ∧ p.root? = some root ∧
        ¬ g.HasParses ["b"] (p.forest.trees root).length := by
  intro g
  have hg : g.Unmarked := by decide
  have hT : ∀ t ∈ ["b"], g.isNonterminal t = false := by decide
  refine ⟨hg, acyclic_of_rank (fun s => if s = "S" then 3 else if s = "A" then 2 else
    if s = "b" then 0 else 1) (by decide), hT, ?_⟩
  obtain ⟨p, hp, hexact⟩ := g.parse_spec (show ["b"] ≠ [] by decide)
  let f : Forest := ⟨[⟨⟨0, 0, .symbol "B"⟩, [⟨none, 1⟩]⟩, ⟨⟨0, 0, .epsilon⟩, []⟩,
    ⟨⟨0, 0, .symbol "A"⟩, [⟨none, 0⟩, ⟨none, 3⟩]⟩, ⟨⟨0, 0, .symbol "C"⟩, [⟨none, 1⟩]⟩,
    ⟨⟨0, 0, .item (.dotted "S" ["A", "A"] ["b"])⟩, [⟨some 2, 2⟩]⟩, ⟨⟨0, 1, .symbol "b"⟩, []⟩,
    ⟨⟨0, 1, .symbol "S"⟩, [⟨some 4, 5⟩]⟩, ⟨⟨0, 1, .symbol Grammar.startMark⟩, [⟨none, 6⟩]⟩]⟩
  obtain ⟨hf, hroot⟩ : p.forest = f ∧ p.root? = some 6 := by
    have hparse :
        (g.parse ["b"]).toOption.map (fun p => (p.forest, p.root?)) = some (f, some 6) := by
      decide +kernel
    rw [hp] at hparse
    exact Prod.mk.inj (Option.some.inj hparse)
  refine ⟨p, 6, hp, hroot, ?_⟩
  rw [hexact.hasParses_iff hg hT hroot, hf]
  intro hcond
  -- at the node of `A` the second family is chosen after the first
  let l : List Choice := [⟨6, 0, ⟨some 4, 5⟩⟩, ⟨4, 0, ⟨some 2, 2⟩⟩, ⟨2, 0, ⟨none, 0⟩⟩,
    ⟨0, 0, ⟨none, 1⟩⟩, ⟨2, 1, ⟨none, 3⟩⟩, ⟨3, 0, ⟨none, 1⟩⟩]
  have hunfolds : Unfolds f [] [6] l :=
    .pick (by decide) (by decide) (.skip (by decide) (.pick (by decide) (by decide)
      (.pick (by decide) (by decide) (.pick (by decide) (by decide) (.skip (by decide)
        (.pick (by decide) (by decide) (.pick (by decide) (by decide) (.skip (by decide)
          .done))))))))
  have hleaf : Spells f (.leaf ⟨0, 0, .epsilon⟩) 1 [] := .leaf rfl rfl
  have hB : Spells f (.one ⟨0, 0, .symbol "B"⟩ (.leaf ⟨0, 0, .epsilon⟩)) 0 [⟨0, 0, ⟨none, 1⟩⟩] :=
    .one rfl (by decide) rfl hleaf
  have hC : Spells f (.one ⟨0, 0, .symbol "C"⟩ (.leaf ⟨0, 0, .epsilon⟩)) 3 [⟨3, 0, ⟨none, 1⟩⟩] :=
    .one rfl (by decide) rfl hleaf
  have hseveral : f.Several 2 := by
    refine ⟨.one ⟨0, 0, .symbol "A"⟩ _, .one ⟨0, 0, .symbol "A"⟩ _,
      ⟨_, .one (c := ⟨2, 0, ⟨none, 0⟩⟩) rfl (by decide) rfl hB⟩,
      ⟨_, .one (c := ⟨2, 1, ⟨none, 3⟩⟩) rfl (by decide) rfl hC⟩, ?_⟩
    intro h
    simp at h
  have hle := hcond _ (Forest.mem_trees_iff.mpr ⟨l, hunfolds, rfl⟩) 2 hseveral
  exact absurd hle (by decide)

end Parsing
