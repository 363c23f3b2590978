/-
# What a forest packs

The families of a node are told by what the grammar derives. A rule without a
right-hand side gives the empty leaf; a rule with a single symbol gives the symbol
over the same span; a longer rule gives one family for each place where the text
falls into what the last symbol derives and what the others do. The others have a
node of their own, and its families are told in the same way (`Packed`).

The families that a parse grows are these and no others (`Grown.packed`,
`Packed.grown`): a node has a family only because some item from its first position
has come to its end, and where that item was entered, all rules with its left-hand
side were.

Key definitions: `Label.front`, `Packed`, `Forest.PacksExactly`.
Key theorems: `Grown.packed`, `Packed.grown`, `Grammar.parse_packs`.
-/
import Parsing.Proofs.Parse.Language

namespace Parsing

/-- The label of the node for the first symbols of a rule, of which more are to come: the
symbol itself if it is one, else the rule with its dot. -/
def Label.front (lhs : Symbol) (before after : List Symbol) : Label :=
  match before with
  | [s] => .symbol s
  | _ => .item (.dotted lhs before after)

/-- The families of nodes that the grammar calls for on the tokens: the key of the node, of the
left child if there is one, and of the right child. -/
inductive Packed (g : Grammar) (tokens : List Symbol) :
    NodeKey → Option NodeKey → NodeKey → Prop
  | empty {A : Symbol} {i : Nat} (hr : ⟨A, []⟩ ∈ g.rules) :
      Packed g tokens ⟨i, i, .symbol A⟩ none ⟨i, i, .epsilon⟩
  | unit {A X : Symbol} {j i : Nat} (hr : ⟨A, [X]⟩ ∈ g.rules)
      (hX : Derives g.rules [X] (stretch tokens j i)) :
      Packed g tokens ⟨j, i, .symbol A⟩ none ⟨j, i, .symbol X⟩
  | rule {A X : Symbol} {before : List Symbol} {j k i : Nat} (hr : ⟨A, before ++ [X]⟩ ∈ g.rules)
      (hb : before ≠ []) (hjk : j ≤ k) (hki : k ≤ i)
      (hbefore : Derives g.rules before (stretch tokens j k))
      (hX : Derives g.rules [X] (stretch tokens k i)) :
      Packed g tokens ⟨j, i, .symbol A⟩ (some ⟨j, k, .front A before [X]⟩) ⟨k, i, .symbol X⟩
  | part {A X : Symbol} {before after : List Symbol} {j k i : Nat}
      (hr : ⟨A, before ++ X :: after⟩ ∈ g.rules) (hb : before ≠ []) (ha : after ≠ [])
      (hjk : j ≤ k) (hki : k ≤ i) (hbefore : Derives g.rules before (stretch tokens j k))
      (hX : Derives g.rules [X] (stretch tokens k i)) :
      Packed g tokens ⟨j, i, .item (.dotted A (before ++ [X]) after)⟩
        (some ⟨j, k, .front A before (X :: after)⟩) ⟨k, i, .symbol X⟩

/-- Whether the node has families, and they are exactly those whose children `P` holds of, each
once. -/
structure Forest.PacksExactly (f : Forest) (n : Node) (P : Option NodeKey → NodeKey → Prop) :
    Prop where
  inhabited : n.families ≠ []
  distinct : n.families.Nodup
  only : ∀ fam ∈ n.families, ∃ left? right, f.Names fam left? right ∧ P left? right
  all : ∀ left? right, P left? right → ∃! fam, fam ∈ n.families ∧ f.Names fam left? right

/-! ### Labels of items with a dot in the middle -/

namespace Item

variable {A s : Symbol} {before after : List Symbol} {it : Item}

theorem eq_dotted_of_next? (h : it.next? = some s) :
    ∃ before after, it = dotted it.lhs before (s :: after) := by
  have hs : it.rule.rhs[it.dot]? = some s := h
  obtain ⟨hlt, rfl⟩ := List.getElem?_eq_some_iff.mp hs
  refine ⟨it.rule.rhs.take it.dot, it.rule.rhs.drop (it.dot + 1), ?_⟩
  rw [← List.drop_eq_getElem_cons hlt, dotted_take_drop]

theorem label_dotted_nil : (dotted A before []).label = .symbol A :=
  label_of_isComplete (isComplete_dotted_nil A before)

theorem label_dotted_cons :
    (dotted A before (s :: after)).label = .front A before (s :: after) := by
  have hc : (dotted A before (s :: after)).isComplete = false := by simp [isComplete, dotted]
  have htake : (dotted A before (s :: after)).rule.rhs.take
      (dotted A before (s :: after)).dot = before := by simp [dotted]
  rw [label, if_neg (by simp [hc]), htake]
  rfl

/-- Behind several symbols an unfinished rule has a node of its own. -/
theorem label_dotted_concat (hb : before ≠ []) (ha : after ≠ []) :
    (dotted A (before ++ [s]) after).label = .item (dotted A (before ++ [s]) after) := by
  refine label_of_dot_ne_one ?_ ?_
  · simpa [isComplete, dotted] using ha
  · simpa [dotted] using hb

theorem key?_dotted_nil {j k : Nat} : (dotted A [] after).key? j k = none := rfl

theorem key?_dotted {j k : Nat} (hb : before ≠ []) : (dotted A before (s :: after)).key? j k =
    some ⟨j, k, .front A before (s :: after)⟩ := by
  have hd : (dotted A before (s :: after)).dot ≠ 0 := by simpa [dotted] using hb
  rw [key?, if_neg hd, label_dotted_cons]

/-- A symbol's label on a node of an item's own is the left-hand side of the item. -/
theorem lhs_of_label (h : it.owned) (hl : it.label = .symbol s) : it.lhs = s := by
  by_cases hc : it.isComplete = true
  · rw [label_of_isComplete hc] at hl
    exact Label.symbol.inj hl
  · rw [label_of_dot_ne_one (Bool.not_eq_true _ ▸ hc) (h.resolve_left hc)] at hl
    cases hl

/-- An item's label is that of the item itself. -/
theorem eq_of_label {it' : Item} (hl : it.label = .item it') : it = it' := by
  unfold label at hl
  split at hl
  · cases hl
  · split at hl
    · cases hl
    · exact Label.item.inj hl

theorem label_ne_epsilon (it : Item) : it.label ≠ .epsilon := by
  unfold label
  split
  · simp
  · split <;> simp

end Item

/-! ### Grown and packed -/

section

variable {g : Grammar} {tokens : List Symbol} {key right : NodeKey} {left? : Option NodeKey}

/-- A node gets a family because an item from its first position has come to its end. -/
theorem Grown.exists_fits (h : Grown g tokens key left? right) :
    ∃ it : Item, Fits g .literal tokens it key.start key.stop ∧ it.owned ∧
      it.label = key.label := by
  cases h with
  | @empty done i hd hr =>
    have hc : done.isComplete = true := by
      have := done.dot_le
      rw [hr, List.length_nil] at this
      simp [Item.isComplete, hr, Nat.le_zero.mp this]
    exact ⟨done, hd, .inl hc, Item.label_of_isComplete hc⟩
  | @move it it' o k i s h hs ha hx ho => exact ⟨it', h.move hs ha hx, ho, rfl⟩

/-- **What a parse grows, the grammar calls for.** -/
theorem Grown.packed (hg : g.Unmarked) (hT : ∀ t ∈ tokens, g.isNonterminal t = false)
    (hmark : key.label ≠ .symbol Grammar.startMark) (h : Grown g tokens key left? right) :
    Packed g tokens key left? right := by
  cases h with
  | @empty done i hd hr =>
    have hlhs : done.lhs ≠ Grammar.startMark := fun e => hmark (congrArg Label.symbol e)
    have hmem := hd.rule_mem_rules hlhs
    obtain ⟨⟨A, rhs⟩, d, hdot⟩ := done
    obtain rfl : rhs = [] := hr
    exact .empty hmem
  | @move it it' o k i s hfits hs ha hx ho =>
    obtain ⟨before, after, hit⟩ := Item.eq_dotted_of_next? hs
    obtain ⟨A, hA⟩ : ∃ A, A = it.lhs := ⟨_, rfl⟩
    rw [← hA] at hit
    subst hit
    rw [Item.advance_dotted] at ha
    obtain rfl := Except.ok.inj ha
    obtain ⟨hki, -, hX⟩ := (hfits.spans_iff hg hT hs).mp hx
    have hbefore : Derives g.rules before (stretch tokens o k) := by
      have := hfits.derives_rules hg
      simpa [Item.dotted] using this
    have hjk := hfits.origin_le
    -- the start rule has no node of its own, apart from the one for its left-hand side
    have hr : (⟨A, before ++ s :: after⟩ : Rule) ∈ g.rules := by
      rcases List.mem_cons.mp hfits.rule_mem with e | hr
      · obtain ⟨hstart, hrhs⟩ : A = Grammar.startMark ∧ before ++ s :: after = [g.start] :=
          Rule.mk.inj e
        have hlen := congrArg List.length hrhs
        simp only [List.length_append, List.length_cons, List.length_nil] at hlen
        obtain rfl : after = [] := List.length_eq_zero_iff.mp (by omega)
        exact absurd (Item.label_dotted_nil.trans (congrArg Label.symbol hstart)) hmark
      · exact hr
    by_cases hb : before = []
    · subst hb
      obtain rfl := hfits.origin_eq rfl
      have hafter : after = [] := by
        rcases ho with hc | hd
        · simpa [Item.isComplete, Item.dotted] using hc
        · simp [Item.dotted] at hd
      subst hafter
      rw [Item.label_dotted_nil, Item.key?_dotted_nil]
      exact .unit hr hX
    · rw [Item.key?_dotted hb]
      by_cases hafter : after = []
      · subst hafter
        rw [Item.label_dotted_nil]
        exact .rule hr hb hjk hki hbefore hX
      · rw [Item.label_dotted_concat hb hafter]
        exact .part hr hb hafter hjk hki hbefore hX

/-- A rule that has been entered grows a family where its symbols up to one derive the text. -/
theorem Fits.grown (hg : g.Unmarked) (hT : ∀ t ∈ tokens, g.isNonterminal t = false)
    {A X : Symbol} {before after : List Symbol} {j k i : Nat}
    (h : Fits g .literal tokens (.atStart ⟨A, before ++ X :: after⟩) j j) (hjk : j ≤ k)
    (hki : k ≤ i) (hi : i ≤ tokens.length)
    (hbefore : Derives g.rules before (stretch tokens j k))
    (hX : Derives g.rules [X] (stretch tokens k i)) (ho : after = [] ∨ before ≠ []) :
    Grown g tokens ⟨j, i, (Item.dotted A (before ++ [X]) after).label⟩
      ((Item.dotted A before (X :: after)).key? j k) ⟨k, i, .symbol X⟩ := by
  have hfits : Fits g .literal tokens (.dotted A before (X :: after)) j k := by
    refine .of_derives_before (Reading.literal_plain hT) hT h hjk (Nat.le_trans hki hi) ?_
    simpa [Item.dotted] using hbefore
  have hs := Item.next?_dotted_cons A X before after
  refine .move hfits hs (Item.advance_dotted A X before after)
    ((hfits.spans_iff hg hT hs).mpr ⟨hki, hi, hX⟩) ?_
  rcases ho with rfl | hb
  · exact .inl (Item.isComplete_dotted_nil A _)
  · exact .inr (by simpa [Item.dotted] using hb)

/-- **What the grammar calls for, a parse grows**, at a node that has some family. -/
theorem Packed.grown (hg : g.Unmarked) (hT : ∀ t ∈ tokens, g.isNonterminal t = false)
    {l? : Option NodeKey} {r : NodeKey} (h₀ : Grown g tokens key l? r)
    (h : Packed g tokens key left? right) : Grown g tokens key left? right := by
  obtain ⟨it, hit, howned, hlabel⟩ := h₀.exists_fits
  have hi := hit.stop_le
  -- where one item with the left-hand side was entered, all its rules were
  have hentered : ∀ {A : Symbol} {rhs : List Symbol}, key.label = .symbol A →
      (⟨A, rhs⟩ : Rule) ∈ g.rules →
      Fits g .literal tokens (.atStart ⟨A, rhs⟩) key.start key.start := by
    intro A rhs hA hr
    have hl := Item.lhs_of_label howned (hlabel.trans hA)
    refine hit.sibling (fun e => ?_) hr hl.symm
    have hAmark : A = Grammar.startMark := hl.symm.trans (congrArg Rule.lhs e)
    exact (hg.2 _ hr).1 hAmark
  cases h with
  | empty hr => exact .empty (hentered rfl hr) rfl
  | @unit A X j i hr hX =>
    have hentry : Fits g .literal tokens (.atStart ⟨A, [] ++ X :: []⟩) j j := hentered rfl hr
    have hnil : Derives g.rules [] (stretch tokens j j) := by
      rw [stretch_self]
      exact .refl []
    have := hentry.grown hg hT (Nat.le_refl j) hit.origin_le hi hnil hX (.inl rfl)
    rwa [Item.label_dotted_nil, Item.key?_dotted_nil] at this
  | rule hr hb hjk hki hbefore hX =>
    have := (hentered rfl hr).grown hg hT hjk hki hi hbefore hX (.inl rfl)
    rwa [Item.label_dotted_nil, Item.key?_dotted hb] at this
  | @part A X before after j k i hr hb ha hjk hki hbefore hX =>
    have hrule : it.rule = ⟨A, before ++ X :: after⟩ := by
      rw [Item.eq_of_label hlabel]
      simp [Item.dotted]
    have hentry := hit.atStart
    rw [hrule] at hentry
    have := hentry.grown hg hT hjk hki hi hbefore hX (.inr hb)
    rwa [Item.label_dotted_concat hb ha, Item.key?_dotted hb] at this

/-- A symbol with rules is no leaf. -/
theorem Leaf.rule_lhs_ne (hT : ∀ t ∈ tokens, g.isNonterminal t = false) {A : Symbol}
    (h : Leaf tokens key) (hA : key.label = .symbol A) : ∀ r ∈ g.rules, r.lhs ≠ A := by
  rcases h with ⟨k, rfl⟩ | ⟨k, a, ha, rfl⟩
  · cases hA
  · cases hA
    exact Grammar.isNonterminal_eq_false_iff.mp (hT A (List.mem_of_getElem? ha))

theorem Leaf.label_ne_item (h : Leaf tokens key) (it : Item) : key.label ≠ .item it := by
  rcases h with ⟨k, rfl⟩ | ⟨k, a, ha, rfl⟩ <;> exact Label.noConfusion

/-- A node for which the grammar calls for a family is no leaf. -/
theorem Packed.not_leaf (hT : ∀ t ∈ tokens, g.isNonterminal t = false)
    (h : Packed g tokens key left? right) : ¬ Leaf tokens key := by
  intro hleaf
  cases h with
  | empty hr | unit hr | rule hr => exact hleaf.rule_lhs_ne hT rfl _ hr rfl
  | part => exact hleaf.label_ne_item _ rfl

/-- A node's families are those of a relation that agrees with what is grown there. -/
theorem Parse.Exact.packsExactly {p : Parse} (hp : p.Exact g tokens) {n : Node}
    (hn : n ∈ p.forest.nodes) (hbare : n.families ≠ []) {P : Option NodeKey → NodeKey → Prop}
    (hP : ∀ left? right, Grown g tokens n.key left? right ↔ P left? right) :
    p.forest.PacksExactly n P where
  inhabited := hbare
  distinct := hp.forest.valid.once n hn
  only fam hfam := by
    obtain ⟨l, r, hnames, hgrown⟩ := hp.forest.grown n hn fam hfam
    exact ⟨l, r, hnames, (hP l r).mp hgrown⟩
  all l r h := by
    obtain ⟨m, hm, hkey, fam, hfam, hnames⟩ := hp.packs n.key l r ((hP l r).mpr h)
    obtain rfl := hp.forest.valid.node_inj hm hn hkey
    exact ⟨fam, ⟨hfam, hnames⟩, fun fam' h' => hp.forest.valid.family_inj h'.2 hnames⟩

/-- **A forest packs all derivations.** The nodes of nonterminals and of items have the
families that the grammar calls for, each once; the nodes of symbols without rules and
of the empty text have none. The tokens need not even be accepted. -/
theorem Grammar.parse_packs (hg : g.Unmarked) (hne : tokens ≠ [])
    (hT : ∀ t ∈ tokens, g.isNonterminal t = false) :
    ∃ p, g.parse tokens = .ok p ∧ ∀ n ∈ p.forest.nodes,
      (((∃ A, n.key.label = .symbol A ∧ g.isNonterminal A = true) ∨
          ∃ it, n.key.label = .item it) →
        p.forest.PacksExactly n (Packed g tokens n.key)) ∧
      ((n.key.label = .epsilon ∨ ∃ a, n.key.label = .symbol a ∧ a ≠ Grammar.startMark ∧
          g.isNonterminal a = false) → n.families = []) := by
  obtain ⟨p, hp, hexact⟩ := g.parse_spec hne
  refine ⟨p, hp, fun n hn => ⟨fun hlabel => ?_, fun hlabel => ?_⟩⟩
  · have hmark : n.key.label ≠ .symbol Grammar.startMark := by
      intro e
      rcases hlabel with ⟨A, hA, hnt⟩ | ⟨it, hit⟩
      · obtain ⟨r, hr, rfl⟩ := isNonterminal_iff.mp hnt
        exact (hg.2 r hr).1 (Label.symbol.inj (hA.symm.trans e))
      · rw [hit] at e
        cases e
    have hbare : n.families ≠ [] := by
      intro hbare
      have hleaf := (hexact.forest.leaf n hn hbare).resolve_right (by simp)
      rcases hlabel with ⟨A, hA, hnt⟩ | ⟨it, hit⟩
      · obtain ⟨r, hr, hl⟩ := isNonterminal_iff.mp hnt
        exact hleaf.rule_lhs_ne hT hA r hr hl
      · exact hleaf.label_ne_item it hit
    obtain ⟨fam, hfam⟩ := List.exists_mem_of_ne_nil _ hbare
    obtain ⟨l₀, r₀, -, hgrown⟩ := hexact.forest.grown n hn fam hfam
    exact hexact.packsExactly hn hbare fun l r =>
      ⟨fun h => h.packed hg hT hmark, fun h => h.grown hg hT hgrown⟩
  · refine List.eq_nil_iff_forall_not_mem.mpr fun fam hfam => ?_
    obtain ⟨l, r, -, hgrown⟩ := hexact.forest.grown n hn fam hfam
    obtain ⟨it, hit, howned, hl⟩ := hgrown.exists_fits
    rcases hlabel with he | ⟨a, ha, hmark, hnt⟩
    · exact it.label_ne_epsilon (hl.trans he)
    · have hlhs := Item.lhs_of_label howned (hl.trans ha)
      have hr := hit.rule_mem_rules (fun e => hmark (hlhs.symm.trans e))
      exact isNonterminal_eq_false_iff.mp hnt it.rule hr hlhs

end

/-- The theorem at a grammar where a symbol derived as nothing comes early and late, with a
rule of three symbols. -/
theorem Grammar.parse_packs_nullable :
    let g := Grammar.ofRules "S"
      [⟨"S", ["A", "S", "A"]⟩, ⟨"S", ["a"]⟩, ⟨"S", ["S"]⟩, ⟨"A", []⟩, ⟨"A", ["S"]⟩]
    ∃ p, g.parse ["a", "a"] = .ok p ∧ ∀ n ∈ p.forest.nodes,
      (((∃ A, n.key.label = .symbol A ∧ g.isNonterminal A = true) ∨
          ∃ it, n.key.label = .item it) →
        p.forest.PacksExactly n (Packed g ["a", "a"] n.key)) ∧
      ((n.key.label = .epsilon ∨ ∃ a, n.key.label = .symbol a ∧ a ≠ Grammar.startMark ∧
          g.isNonterminal a = false) → n.families = []) :=
  Grammar.parse_packs (by decide) (by decide) (by decide)

end Parsing
