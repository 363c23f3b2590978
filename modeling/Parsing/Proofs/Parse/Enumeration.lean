/-
# One derivation for each parse tree

Where no rule is empty and no nonterminal derives itself, unpacking the forest of a parse
gives the parse trees of the tokens, each once. Every node below the root is then wide
and none lies below itself, so no walk enters a node twice, and what unpacking finds are
the trees spelled under the root (`Parse.Exact.unfolds_iff`). The families that spell
them are those that the grammar calls for (`Parse.Exact.valid_of_spells`,
`Parse.Exact.exists_spells`), so they are the parse trees with up to two children at
each node.

Key definitions: `Grammar.IsParse`, `PartialTree.Shows`.
Key theorems: `Parse.Exact.mem_trees_iff`, `PartialTree.Shows.unique`,
`Grammar.parse_enumerates`.
-/
import Mathlib.Data.Prod.Basic
import Parsing.Proofs.Parse.Descent
import Parsing.Proofs.Parse.Leaves

namespace Parsing

/-- Whether the tree is a parse tree of the tokens from the start symbol. -/
structure Grammar.IsParse (g : Grammar) (tokens : List Symbol) (tree : Tree) : Prop where
  valid : tree.Valid g.rules
  root : tree.root = g.start
  yield : tree.yield = tokens

/-- Whether the edges of `t` are those of the parse tree with up to two children at each node. -/
def PartialTree.Shows (f : Forest) (t : PartialTree) (tree : Tree) : Prop :=
  t.edges.map (Prod.map f.key? f.key?) = (tree.bin 0).edges.map (Prod.map some some)

variable {g : Grammar} {tokens : List Symbol} {tree tree' : Tree}

theorem Under.wide (heps : ∀ r ∈ g.rules, r.rhs ≠ []) {a b : NodeKey} (h : Under g tokens a b) :
    b.start < b.stop := by
  obtain ⟨l?, r, hp, hb⟩ := h
  cases hp with
  | empty hr => exact absurd rfl (heps _ hr)
  | unit hr hX =>
    obtain rfl := hb.resolve_left (by simp)
    exact hX.lt_of_stretch heps (by simp)
  | rule _ hne _ _ hbefore hX | part _ hne _ _ _ hbefore hX =>
    rcases hb with hb | rfl
    · cases hb
      exact hbefore.lt_of_stretch heps hne
    · exact hX.lt_of_stretch heps (by simp)

namespace Grammar.IsParse

theorem key_bin (h : g.IsParse tokens tree) :
    (tree.bin 0).key = ⟨0, tokens.length, .symbol g.start⟩ := by
  rw [tree.key_bin, h.root, h.yield, Nat.zero_add]

/-- A parse tree is a tree that the grammar calls for. -/
theorem valid_bin (h : g.IsParse tokens tree) : (tree.bin 0).Valid g tokens := by
  refine tree.valid_bin 0 h.valid ?_ ?_
  · exact Nat.le_of_eq (by rw [h.yield, Nat.zero_add])
  · rw [h.yield, Nat.zero_add, stretch_all]

theorem of_valid (hT : ∀ t ∈ tokens, g.isNonterminal t = false) {b : Bin} (hb : b.Valid g tokens)
    (hkey : b.key = ⟨0, tokens.length, .symbol g.start⟩) :
    ∃ tree, g.IsParse tokens tree ∧ tree.bin 0 = b := by
  obtain ⟨tree, hvalid, hroot, hyield, hbin⟩ := (hb.exists_tree hT).1 0 tokens.length g.start hkey
  rw [stretch_all] at hyield
  exact ⟨tree, ⟨hvalid, hroot, hyield⟩, hbin⟩

end Grammar.IsParse

/-- Choices that spell a parse tree make a derivation that shows it. -/
theorem Spells.shows {f : Forest} {root : NodeId} {l : List Choice}
    (h : Spells f (tree.bin 0) root l) : (⟨l.reverse, []⟩ : PartialTree).Shows f tree := by
  unfold PartialTree.Shows
  rw [PartialTree.edges_of_applied]
  exact h.edges

/-- **A derivation shows one parse tree.** -/
theorem PartialTree.Shows.unique (hT : ∀ t ∈ tokens, g.isNonterminal t = false)
    (heps : ∀ r ∈ g.rules, r.rhs ≠ []) {f : Forest} {t : PartialTree}
    (htree : g.IsParse tokens tree) (htree' : g.IsParse tokens tree') (h : t.Shows f tree)
    (h' : t.Shows f tree') : tree = tree' := by
  have hinj : Function.Injective (Prod.map (some : NodeKey → _) (some : NodeKey → _)) :=
    (Option.some_injective _).prodMap (Option.some_injective _)
  have hedges : (tree.bin 0).edges = (tree'.bin 0).edges :=
    List.map_injective_iff.mpr hinj (h.symm.trans h')
  have hkey : (tree.bin 0).key = (tree'.bin 0).key := htree.key_bin.trans htree'.key_bin.symm
  have hbin := htree.valid_bin.edges_inj hT heps htree'.valid_bin hkey
    (congrArg (· ++ ([] : List (NodeKey × NodeKey))) hedges)
  exact Tree.bin_inj tree tree' 0 hbin.1

/-! ### In the forest of a parse -/

namespace Parse.Exact

variable {p : Parse} {root id : NodeId} {key right : NodeKey} {left? : Option NodeKey} {b : Bin}
  {l : List Choice} {t t' : PartialTree}

/-- A family that the grammar calls for is among the choices at its node. -/
theorem exists_choice (hp : p.Exact g tokens) (hg : g.Unmarked)
    (hT : ∀ t ∈ tokens, g.isNonterminal t = false) (hid : p.forest.key? id = some key)
    (h : Packed g tokens key left? right) :
    ∃ c ∈ p.forest.choicesAt id, p.forest.Names c.family left? right := by
  obtain ⟨n, hn, rfl⟩ := Forest.key?_eq_some_iff.mp hid
  have hmem := List.mem_of_getElem? hn
  -- the node is no leaf, so it has some family
  have hbare : n.families ≠ [] := fun hbare =>
    h.not_leaf hT ((hp.forest.leaf n hmem hbare).resolve_right (by simp))
  obtain ⟨fam, hfam⟩ := List.exists_mem_of_ne_nil _ hbare
  obtain ⟨l₀, r₀, -, hgrown⟩ := hp.forest.grown n hmem fam hfam
  obtain ⟨m, hm, hkey, fam', hfam', hnames⟩ := hp.packs n.key left? right (h.grown hg hT hgrown)
  obtain rfl := hp.forest.valid.node_inj hm hmem hkey
  obtain ⟨i, hi⟩ := List.mem_iff_getElem?.mp hfam'
  exact ⟨⟨id, i, fam'⟩, Forest.mem_choicesAt.mpr ⟨rfl, m, hn, hi⟩, hnames⟩

/-- **What choices spell, the grammar calls for.** -/
theorem valid_of_spells (hp : p.Exact g tokens) (hg : g.Unmarked)
    (hT : ∀ t ∈ tokens, g.isNonterminal t = false) (h : Spells p.forest b id l)
    (hmark : b.key.label ≠ .symbol Grammar.startMark) : b.Valid g tokens := by
  induction h with
  | leaf hid hnone =>
    obtain ⟨n, hn, rfl⟩ := Forest.key?_eq_some_iff.mp hid
    exact hp.leaf_of_choicesAt hn hnone
  | @one id key c b l hid hc hleft hb ih =>
    obtain ⟨l?, r, hnames, hpacked⟩ := hp.packed hg hT hid hmark hc
    obtain ⟨rfl, rfl⟩ := hnames.unique (Forest.names_none hleft hb.key?_eq)
    have hunder : Under g tokens key b.key := ⟨none, b.key, hpacked, .inr rfl⟩
    exact ⟨hpacked, ih (hunder.label_ne hg)⟩
  | @two id a key c left right l l' hid hc ha hright hleft ihr ihl =>
    obtain ⟨l?, r, hnames, hpacked⟩ := hp.packed hg hT hid hmark hc
    obtain ⟨rfl, rfl⟩ := hnames.unique (Forest.names_some ha hleft.key?_eq hright.key?_eq)
    have hul : Under g tokens key left.key := ⟨some left.key, right.key, hpacked, .inl rfl⟩
    have hur : Under g tokens key right.key := ⟨some left.key, right.key, hpacked, .inr rfl⟩
    exact ⟨hpacked, ihl (hul.label_ne hg), ihr (hur.label_ne hg)⟩

/-- **What the grammar calls for, choices spell.** -/
theorem exists_spells (hp : p.Exact g tokens) (hg : g.Unmarked)
    (hT : ∀ t ∈ tokens, g.isNonterminal t = false) (hb : b.Valid g tokens)
    (hid : p.forest.key? id = some b.key) (hmark : b.key.label ≠ .symbol Grammar.startMark) :
    ∃ l, Spells p.forest b id l := by
  induction b generalizing id with
  | leaf key =>
    refine ⟨[], .leaf hid ?_⟩
    refine List.eq_nil_iff_forall_not_mem.mpr fun c hc => ?_
    obtain ⟨l?, r, -, hpacked⟩ := hp.packed hg hT hid hmark hc
    exact hpacked.not_leaf hT hb
  | one key b ih =>
    obtain ⟨c, hc, hl, hr⟩ := hp.exists_choice hg hT hid hb.1
    have hunder : Under g tokens key b.key := ⟨none, b.key, hb.1, .inr rfl⟩
    obtain ⟨l, hl'⟩ := ih hb.2 hr (hunder.label_ne hg)
    exact ⟨c :: l, .one hid hc (Option.map_eq_none_iff.mp hl) hl'⟩
  | two key left right ihl ihr =>
    obtain ⟨c, hc, hl, hr⟩ := hp.exists_choice hg hT hid hb.1
    obtain ⟨a, ha, hkey⟩ := Option.map_eq_some_iff.mp hl
    have hul : Under g tokens key left.key := ⟨some left.key, right.key, hb.1, .inl rfl⟩
    have hur : Under g tokens key right.key := ⟨some left.key, right.key, hb.1, .inr rfl⟩
    obtain ⟨l₁, h₁⟩ := ihr hb.2.2 hr (hur.label_ne hg)
    obtain ⟨l₂, h₂⟩ := ihl hb.2.1 hkey (hul.label_ne hg)
    exact ⟨c :: (l₁ ++ l₂), .two hid hc ha h₁ h₂⟩

/-- Every node below the root is wide where no rule is empty. -/
theorem exists_covers (hp : p.Exact g tokens) (hg : g.Unmarked) (hne : tokens ≠ [])
    (hT : ∀ t ∈ tokens, g.isNonterminal t = false) (heps : ∀ r ∈ g.rules, r.rhs ≠ [])
    (hroot : p.root? = some root) (h : Relation.ReflTransGen p.forest.Child root id) :
    ∃ i, p.forest.covers i id = true := by
  obtain ⟨key, hid, hwide⟩ : ∃ key, p.forest.key? id = some key ∧ key.start < key.stop := by
    rcases Relation.reflTransGen_iff_eq_or_transGen.mp h with rfl | h
    · exact ⟨_, hp.root id hroot, List.length_pos_iff.mpr hne⟩
    · obtain ⟨key, hid, hu⟩ := hp.transGen_under hg hT (hp.root root hroot) hg.label_start_ne h
      obtain ⟨k, -, hlast⟩ := Relation.TransGen.tail'_iff.mp hu
      exact ⟨key, hid, hlast.wide heps⟩
  refine ⟨key.start, ?_⟩
  rw [Forest.covers_of_key? hid]
  simpa using hwide

section

variable (hp : p.Exact g tokens) (hg : g.Unmarked) (hne : tokens ≠ [])
  (hT : ∀ t ∈ tokens, g.isNonterminal t = false) (heps : ∀ r ∈ g.rules, r.rhs ≠ [])
  (hacyc : g.Acyclic) (hroot : p.root? = some root)
include hp hg hne hT heps hacyc hroot

/-- Unpacking finds the trees spelled under the root. -/
theorem unfolds_iff : Unfolds p.forest [] [root] l ↔ ∃ b, Spells p.forest b root l := by
  have hkey := hp.root root hroot
  refine unfolds_iff_spells hp.forest.valid ⟨_, hkey⟩ fun l hl => ?_
  exact hl.nodup_entered hp.forest.valid (fun x hx => hp.exists_covers hg hne hT heps hroot hx)
    fun x hx => hp.acyclic hg hT hacyc hkey hg.label_start_ne hx

/-- **Unpacking finds the parse trees of the tokens.** -/
theorem mem_trees_iff : t ∈ p.forest.trees root ↔
    ∃ tree l, g.IsParse tokens tree ∧ Spells p.forest (tree.bin 0) root l ∧
      t = ⟨l.reverse, []⟩ := by
  have hkey := hp.root root hroot
  rw [Forest.mem_trees_iff]
  constructor
  · rintro ⟨l, hl, rfl⟩
    obtain ⟨b, hb⟩ := (hp.unfolds_iff hg hne hT heps hacyc hroot).mp hl
    have hbkey : b.key = ⟨0, tokens.length, .symbol g.start⟩ :=
      Option.some.inj (hb.key?_eq.symm.trans hkey)
    have hvalid := hp.valid_of_spells hg hT hb (hbkey ▸ hg.label_start_ne)
    obtain ⟨tree, htree, rfl⟩ := Grammar.IsParse.of_valid hT hvalid hbkey
    exact ⟨tree, l, htree, hb, rfl⟩
  · rintro ⟨tree, l, -, hb, rfl⟩
    exact ⟨l, (hp.unfolds_iff hg hne hT heps hacyc hroot).mpr ⟨_, hb⟩, rfl⟩

theorem exists_shows (ht : t ∈ p.forest.trees root) :
    ∃ tree, g.IsParse tokens tree ∧ t.Shows p.forest tree := by
  obtain ⟨tree, l, htree, hb, rfl⟩ := (hp.mem_trees_iff hg hne hT heps hacyc hroot).mp ht
  exact ⟨tree, htree, hb.shows⟩

theorem exists_tree_shows (htree : g.IsParse tokens tree) :
    ∃ t ∈ p.forest.trees root, t.Shows p.forest tree := by
  have hid : p.forest.key? root = some (tree.bin 0).key := by
    rw [htree.key_bin]
    exact hp.root root hroot
  obtain ⟨l, hl⟩ := hp.exists_spells hg hT htree.valid_bin hid
    (htree.key_bin ▸ hg.label_start_ne)
  refine ⟨⟨l.reverse, []⟩, ?_, hl.shows⟩
  exact (hp.mem_trees_iff hg hne hT heps hacyc hroot).mpr ⟨tree, l, htree, hl, rfl⟩

/-- **One derivation shows a parse tree.** -/
theorem eq_of_shows (ht : t ∈ p.forest.trees root) (ht' : t' ∈ p.forest.trees root)
    (htree : g.IsParse tokens tree) (h : t.Shows p.forest tree) (h' : t'.Shows p.forest tree) :
    t = t' := by
  have hspells : ∀ t ∈ p.forest.trees root, t.Shows p.forest tree →
      ∃ l, Spells p.forest (tree.bin 0) root l ∧ t = ⟨l.reverse, []⟩ := by
    intro t ht h
    obtain ⟨tree', l, htree', hb, rfl⟩ := (hp.mem_trees_iff hg hne hT heps hacyc hroot).mp ht
    obtain rfl := hb.shows.unique hT heps htree' htree h
    exact ⟨l, hb, rfl⟩
  obtain ⟨l, hl, rfl⟩ := hspells t ht h
  obtain ⟨l', hl', rfl⟩ := hspells t' ht' h'
  rw [hl.unique hp.forest.valid hl']

/-- Derivations with the same edges are one. -/
theorem nodup_edges : ((p.forest.trees root).map PartialTree.edges).Nodup := by
  refine List.Nodup.map_on ?_ (Forest.nodup_completions _ _)
  intro t ht t' ht' hedges
  obtain ⟨tree, htree, h⟩ := hp.exists_shows hg hne hT heps hacyc hroot ht
  have h' : t'.Shows p.forest tree := by
    unfold PartialTree.Shows
    rw [← hedges]
    exact h
  exact hp.eq_of_shows hg hne hT heps hacyc hroot ht ht' htree h h'

/-- **The leaves of a derivation are the tokens in order.** -/
theorem leaves_derivation (ht : t ∈ p.forest.trees root) :
    (p.forest.derivation t).leaves = tokens.zipIdx.map fun (a, i) => ⟨a, i, i + 1⟩ := by
  obtain ⟨tree, htree, h⟩ := hp.exists_shows hg hne hT heps hacyc hroot ht
  rw [Forest.derivation_eq h]
  refine htree.valid_bin.leaves_eq hT heps ?_ ?_
  · -- as the tokens are accepted, the start symbol has rules
    obtain ⟨r, hr, hlhs, -⟩ :=
      (hp.accepts.trans (Fits.exists_done_iff hg hT)).mp (Option.isSome_of_mem hroot)
    rw [htree.key_bin]
    exact fun hleaf => hleaf.rule_lhs_ne hT rfl r hr hlhs
  · rw [tree.fringe_bin heps 0 htree.valid, htree.yield]

end

end Parse.Exact

/-- **Unpacking enumerates the parse trees.** Where no rule is empty and no nonterminal derives
itself, each derivation taken out of the forest of a parse shows one parse tree of the tokens,
and each parse tree is shown by one derivation. No two derivations have the same edges; taking
them one by one gives all of them, and the leaves of each are the tokens in order. -/
theorem Grammar.parse_enumerates (hg : g.Unmarked) (heps : ∀ r ∈ g.rules, r.rhs ≠ [])
    (hacyc : g.Acyclic) (hne : tokens ≠ []) (hT : ∀ t ∈ tokens, g.isNonterminal t = false) :
    ∃ p, g.parse tokens = .ok p ∧ ∀ root, p.root? = some root →
      (∀ t ∈ p.forest.trees root, ∃! tree, g.IsParse tokens tree ∧ t.Shows p.forest tree) ∧
      (∀ tree, g.IsParse tokens tree →
        ∃! t, t ∈ p.forest.trees root ∧ t.Shows p.forest tree) ∧
      ((p.forest.trees root).map PartialTree.edges).Nodup ∧
      (∀ n, (p.forest.take n [.ofRoot root]).1 = (p.forest.trees root).take n) ∧
      ∀ t ∈ p.forest.trees root,
        (p.forest.derivation t).leaves = tokens.zipIdx.map fun (a, i) => ⟨a, i, i + 1⟩ := by
  obtain ⟨p, hp, hexact⟩ := g.parse_spec hne
  refine ⟨p, hp, fun root hroot => ⟨fun t ht => ?_, fun tree htree => ?_, ?_, fun n => ?_,
    fun t ht => ?_⟩⟩
  · obtain ⟨tree, htree, hshows⟩ := hexact.exists_shows hg hne hT heps hacyc hroot ht
    exact ⟨tree, ⟨htree, hshows⟩, fun tree' h => h.2.unique hT heps h.1 htree hshows⟩
  · obtain ⟨t, ht, hshows⟩ := hexact.exists_tree_shows hg hne hT heps hacyc hroot htree
    exact ⟨t, ⟨ht, hshows⟩, fun t' h =>
      hexact.eq_of_shows hg hne hT heps hacyc hroot h.1 ht htree h.2 hshows⟩
  · exact hexact.nodup_edges hg hne hT heps hacyc hroot
  · exact p.forest.take_ofRoot n root
  · exact hexact.leaves_derivation hg hne hT heps hacyc hroot ht

/-- The theorem at a grammar that puts symbols together in either way. -/
theorem Grammar.parse_enumerates_ambiguous :
    let g := Grammar.ofRules "S" [⟨"S", ["S", "S"]⟩, ⟨"S", ["b"]⟩]
    let tokens := ["b", "b", "b"]
    ∃ p, g.parse tokens = .ok p ∧ ∀ root, p.root? = some root →
      (∀ t ∈ p.forest.trees root, ∃! tree, g.IsParse tokens tree ∧ t.Shows p.forest tree) ∧
      (∀ tree, g.IsParse tokens tree →
        ∃! t, t ∈ p.forest.trees root ∧ t.Shows p.forest tree) ∧
      ((p.forest.trees root).map PartialTree.edges).Nodup ∧
      (∀ n, (p.forest.take n [.ofRoot root]).1 = (p.forest.trees root).take n) ∧
      ∀ t ∈ p.forest.trees root,
        (p.forest.derivation t).leaves = tokens.zipIdx.map fun (a, i) => ⟨a, i, i + 1⟩ :=
  Grammar.parse_enumerates (by decide) (by decide) (Grammar.acyclic_of_rules (by decide))
    (by decide) (by decide)

end Parsing
