/-
# Parses and the order of rules

The order in which the rules of a grammar were put in decides in which order a parse meets its
items, which arrival makes a node, and when a symbol is found to be derived as nothing. It does
not decide what there is in the end: a forest has a node for each grown family and for each
bare leaf (`Parse.Exact.mem_keys_iff`), with exactly the families grown there, and what
is grown or bare is told by items that fit. An item fits by the rules that there are, wherever they
stand among the others (`Fits.of_sameRules`).

Key definitions: `Forest.childKeys`, `Forest.SameByKeys`, `Grammar.SameRules`.
Key theorems: `Parse.Exact.mem_keys_iff`, `Parse.Exact.mem_childKeys_iff`, `Fits.of_sameRules`,
`Grammar.parse_sameByKeys`.
-/
import Parsing.Proofs.Parse.Exact

namespace Parsing

variable {g g' : Grammar} {tokens : List Symbol} {p p' : Parse}

/-! ### Forests told by keys -/

namespace Forest

/-- The families of a node, told by the keys of the children. -/
def childKeys (f : Forest) (n : Node) : List (Option (Option NodeKey) × Option NodeKey) :=
  n.families.map fun fam => (fam.left?.map f.key?, f.key? fam.right)

/-- Whether two forests differ in the order of nodes and families only: their nodes have the same
keys, each as often in one as in the other, and nodes of one key have the same families by the
keys of the children, each as often at one as at the other. -/
structure SameByKeys (f f' : Forest) : Prop where
  keys : (f.nodes.map (·.key)).Perm (f'.nodes.map (·.key))
  families : ∀ n ∈ f.nodes, ∀ n' ∈ f'.nodes, n.key = n'.key →
    (f.childKeys n).Perm (f'.childKeys n')

variable {f : Forest}

/-- In a sound forest a node's families are told by keys in one way only. -/
theorem Sound.nodup_childKeys (hf : f.Sound g tokens) {n : Node} (hn : n ∈ f.nodes) :
    (f.childKeys n).Nodup := by
  refine (List.nodup_map_iff_inj_on (hf.valid.once n hn)).mpr fun fam hfam fam' hfam' heq => ?_
  obtain ⟨left?, right, hnames, -⟩ := hf.grown n hn fam hfam
  obtain ⟨hleft, hright⟩ := Prod.mk.inj heq
  exact hf.valid.family_inj hnames ⟨hleft.symm.trans hnames.1, hright.symm.trans hnames.2⟩

end Forest

/-! ### What a parse leaves, by keys -/

namespace Parse.Exact

/-- What an item has recognised has its node. -/
theorem mem_keys_of_fits (hp : p.Exact g tokens) {it : Item} {o i : Nat} {key : NodeKey}
    (h : Fits g .literal tokens it o i) (hkey : it.key? o i = some key) :
    key ∈ p.forest.nodes.map (·.key) := by
  obtain ⟨c, hc, hit⟩ := hp.has it o i h
  obtain ⟨e, he, hslot⟩ := List.mem_map.mp hit
  obtain ⟨rfl, rfl⟩ : e.item = it ∧ e.origin = o := Prod.mk.inj hslot
  have hsound := (hp.column i c hc).entry e he
  unfold Item.key? at hkey
  split at hkey
  · cases hkey
  · next hd =>
    obtain rfl := Option.some.inj hkey
    obtain ⟨id, hid⟩ := hsound.exists_node hd
    exact List.mem_map.mpr (Forest.mem_of_key? (hsound.key id hid))

/-- The right child of a grown family is there. -/
theorem mem_keys_of_grown (hp : p.Exact g tokens) {key right : NodeKey} {left? : Option NodeKey}
    (h : Grown g tokens key left? right) : right ∈ p.forest.nodes.map (·.key) := by
  obtain ⟨n, -, -, fam, -, hnames⟩ := hp.packs key left? right h
  exact List.mem_map.mpr (Forest.mem_of_key? hnames.2)

/-- A bare leaf is there: below a node that is grown over it, or as the node of the item that has
just moved over the token. -/
theorem mem_keys_of_bare (hp : p.Exact g tokens) {key : NodeKey} (h : Bare g tokens key) :
    key ∈ p.forest.nodes.map (·.key) := by
  cases h with
  | empty h hr => exact hp.mem_keys_of_grown (.empty h hr)
  | @token it o k t h hs ht =>
    obtain ⟨hle, ha⟩ := Item.advance_of_next? hs
    have hspans : Spans g tokens t k (k + 1) := .inl ⟨ht, rfl⟩
    by_cases ho : (⟨it.rule, it.dot + 1, hle⟩ : Item).owned
    · exact hp.mem_keys_of_grown (.move h hs ha hspans ho)
    · obtain ⟨hd, hlabel⟩ := Item.label_of_not_owned hs ha ho
      obtain rfl := h.origin_eq hd
      refine hp.mem_keys_of_fits (h.move hs ha hspans) ?_
      rw [Item.key?, if_neg (Nat.succ_ne_zero _), hlabel]

/-- **Which nodes there are.** A node is there for each key that families are grown at, and for
each bare leaf. -/
theorem mem_keys_iff (hp : p.Exact g tokens) {key : NodeKey} :
    key ∈ p.forest.nodes.map (·.key) ↔
      (∃ left? right, Grown g tokens key left? right) ∨ Bare g tokens key := by
  constructor
  · intro hkey
    obtain ⟨n, hn, rfl⟩ := List.mem_map.mp hkey
    cases hfams : n.families with
    | nil => exact .inr ((hp.forest.bare n hn hfams).resolve_right (by simp))
    | cons fam rest =>
      obtain ⟨left?, right, -, hgrown⟩ := hp.forest.grown n hn fam (by simp [hfams])
      exact .inl ⟨left?, right, hgrown⟩
  · rintro (⟨left?, right, hgrown⟩ | hbare)
    · obtain ⟨n, hn, rfl, -⟩ := hp.packs key left? right hgrown
      exact List.mem_map_of_mem hn
    · exact hp.mem_keys_of_bare hbare

/-- A node's families are those grown at its key. -/
theorem mem_childKeys_iff (hp : p.Exact g tokens) {n : Node} (hn : n ∈ p.forest.nodes)
    {keys : Option (Option NodeKey) × Option NodeKey} :
    keys ∈ p.forest.childKeys n ↔ ∃ left? right, Grown g tokens n.key left? right ∧
      keys = (left?.map some, some right) := by
  constructor
  · intro hkeys
    obtain ⟨fam, hfam, rfl⟩ := List.mem_map.mp hkeys
    obtain ⟨left?, right, hnames, hgrown⟩ := hp.forest.grown n hn fam hfam
    exact ⟨left?, right, hgrown, Prod.ext hnames.1 hnames.2⟩
  · rintro ⟨left?, right, hgrown, rfl⟩
    obtain ⟨m, hm, hkey, fam, hfam, hnames⟩ := hp.packs n.key left? right hgrown
    obtain rfl := hp.forest.valid.node_inj hm hn hkey
    exact List.mem_map.mpr ⟨fam, hfam, Prod.ext hnames.1 hnames.2⟩

/-- The root of an accepted text is the node of the start symbol over all tokens. -/
theorem map_key?_root? (hp : p.Exact g tokens) : p.root?.map p.forest.key? =
    if p.accepts then some (some ⟨0, tokens.length, .symbol g.start⟩) else none := by
  unfold Parse.accepts
  cases hroot : p.root? with
  | none => rfl
  | some root => exact congrArg some (hp.root root hroot)

/-- **Two parses have the same forest by keys** if families are grown and leaves are bare for the
one as for the other. -/
theorem sameByKeys (hp : p.Exact g tokens) (hp' : p'.Exact g' tokens)
    (hgrown : ∀ key left? right,
      Grown g tokens key left? right ↔ Grown g' tokens key left? right)
    (hbare : ∀ key, Bare g tokens key ↔ Bare g' tokens key) :
    p.forest.SameByKeys p'.forest where
  keys := by
    refine (List.perm_ext_iff_of_nodup hp.forest.valid.distinct hp'.forest.valid.distinct).mpr ?_
    intro key
    simp only [hp.mem_keys_iff, hp'.mem_keys_iff, hgrown, hbare]
  families n hn n' hn' hkey := by
    refine (List.perm_ext_iff_of_nodup (hp.forest.nodup_childKeys hn)
      (hp'.forest.nodup_childKeys hn')).mpr fun keys => ?_
    simp only [hp.mem_childKeys_iff hn, hp'.mem_childKeys_iff hn', hgrown, hkey]

end Parse.Exact

/-! ### Grammars with the same rules -/

/-- Whether two grammars have the same start symbol and the same rules, in whatever order. -/
structure Grammar.SameRules (g g' : Grammar) : Prop where
  start : g.start = g'.start
  rules : ∀ r, r ∈ g.rules ↔ r ∈ g'.rules

theorem Grammar.SameRules.symm (h : g.SameRules g') : g'.SameRules g :=
  ⟨h.start.symm, fun r => (h.rules r).symm⟩

/-- Rules put in one after the other give the same rules in every order. -/
theorem Grammar.SameRules.of_perm {rs rs' : List Rule} (h : rs.Perm rs') (start : Symbol) :
    (ofRules start rs).SameRules (ofRules start rs') where
  start := by rw [ofRules, ofRules, start_extend, start_extend]
  rules r := by rw [mem_rules_ofRules, mem_rules_ofRules, h.mem_iff]

section

variable {R : Reading} {it : Item} {o i : Nat}

/-- **An item fits by the rules that there are**, whatever their order. -/
theorem Fits.of_sameRules (h : g.SameRules g') (hfits : Fits g R tokens it o i) :
    Fits g' R tokens it o i := by
  induction hfits with
  | start =>
    have hstart : g.startRule = g'.startRule := by rw [Grammar.startRule, h.start]; rfl
    rw [hstart]
    exact .start
  | predict _ hs hx hr ih =>
    obtain ⟨hmem, hl⟩ := Grammar.mem_rulesFor.mp hr
    exact .predict ih hs hx (Grammar.mem_rulesFor.mpr ⟨(h.rules _).mp hmem, hl⟩)
  | scan _ hs ha ht hx ih => exact .scan ih hs ha ht hx
  | complete _ hs ha hx _ hc ih ihd => exact .complete ih hs ha hx ihd hc

theorem Grown.of_sameRules (h : g.SameRules g') {key right : NodeKey} {left? : Option NodeKey}
    (hgrown : Grown g tokens key left? right) : Grown g' tokens key left? right := by
  cases hgrown with
  | empty hd hr => exact .empty (hd.of_sameRules h) hr
  | move hit hs ha hx ho =>
    refine .move (hit.of_sameRules h) hs ha ?_ ho
    exact hx.imp_right fun ⟨hne, done, hd, hdone⟩ => ⟨hne, done, hd.of_sameRules h, hdone⟩

theorem Bare.of_sameRules (h : g.SameRules g') {key : NodeKey} (hbare : Bare g tokens key) :
    Bare g' tokens key := by
  cases hbare with
  | empty hd hr => exact .empty (hd.of_sameRules h) hr
  | token hit hs ht => exact .token (hit.of_sameRules h) hs ht

end

namespace Grammar

/-- **The order of rules does not count.** Two grammars with the same start symbol and the same
rules accept the same tokens, and their parses differ in the order of nodes and families only: the
forests are the same by keys, and so are their roots. -/
theorem parse_sameByKeys (h : g.SameRules g') (tokens : List Symbol) :
    ∃ p p', g.parse tokens = .ok p ∧ g'.parse tokens = .ok p' ∧ p.accepts = p'.accepts ∧
      p.forest.SameByKeys p'.forest ∧
      p.root?.map p.forest.key? = p'.root?.map p'.forest.key? := by
  by_cases hne : tokens = []
  · subst hne
    refine ⟨_, _, rfl, rfl, rfl, ⟨.refl _, ?_⟩, rfl⟩
    intro n hn
    cases hn
  · obtain ⟨p, hp, hparse⟩ := g.parse_spec hne
    obtain ⟨p', hp', hparse'⟩ := g'.parse_spec hne
    have hfits : ∀ it o i, Fits g .literal tokens it o i ↔ Fits g' .literal tokens it o i :=
      fun _ _ _ => ⟨.of_sameRules h, .of_sameRules h.symm⟩
    have haccepts : p.accepts = p'.accepts := by
      rw [Bool.eq_iff_iff, hparse.accepts, hparse'.accepts]
      simp only [hfits, h.start]
    have hforest : p.forest.SameByKeys p'.forest := hparse.sameByKeys hparse'
      (fun _ _ _ => ⟨.of_sameRules h, .of_sameRules h.symm⟩)
      (fun _ => ⟨.of_sameRules h, .of_sameRules h.symm⟩)
    refine ⟨p, p', hp, hp', haccepts, hforest, ?_⟩
    rw [hparse.map_key?_root?, hparse'.map_key?_root?, haccepts, h.start]

/-- The theorem at a grammar with an ambiguous sum and a nullable symbol, and the same rules in
another order. -/
theorem parse_sameByKeys_sums :
    let g := ofRules "S" [⟨"S", ["S", "O", "S"]⟩, ⟨"S", ["n"]⟩, ⟨"O", ["+"]⟩, ⟨"O", []⟩]
    let g' := ofRules "S" [⟨"O", []⟩, ⟨"S", ["n"]⟩, ⟨"O", ["+"]⟩, ⟨"S", ["S", "O", "S"]⟩]
    g.SameRules g' ∧ g ≠ g' ∧
      ∃ p p', g.parse ["n", "n", "+", "n"] = .ok p ∧ g'.parse ["n", "n", "+", "n"] = .ok p' ∧
        p.accepts = p'.accepts ∧ p.forest.SameByKeys p'.forest ∧
        p.root?.map p.forest.key? = p'.root?.map p'.forest.key? := by
  intro g g'
  have h : g.SameRules g' := .of_perm (by decide) "S"
  exact ⟨h, by decide, parse_sameByKeys h _⟩

end Grammar

end Parsing
