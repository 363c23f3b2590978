/-
# Whether derivations consume the text

A derivation taken out of the forest of a parse stops at leaves only: at tokens and at
empty leaves. It should also come to every token, but a node met again when all its
families are used up is passed over, and then what lies below it is lost: with the
rules `S -> M` and `M -> S | a` the derivation that goes from `S` to `M` and back to
`S` ends there, without the token.

This is the only way to lose a token. A derivation consumes the text exactly when it
enters no node of positive width more often than the node has families
(`Parse.Exact.consumes_iff`), for each position has a single last node. Where no
nonterminal derives itself no such node is entered twice, so there all derivations
consume the text.

Key definitions: `PartialTree.Consumes`.
Key theorems: `Parse.Exact.consumes_iff`, `Parse.Exact.consumes_of_acyclic`,
`Grammar.parse_consumes_iff`.
-/
import Parsing.Proofs.Parse.Descent

namespace Parsing

/-- Whether the nodes that a tree stops at are exactly the tokens, together with empty
leaves. -/
structure PartialTree.Consumes (f : Forest) (tokens : List Symbol) (root : NodeId)
    (t : PartialTree) : Prop where
  leaf : ∀ id, t.Stops root id → ∃ key, f.key? id = some key ∧ Leaf tokens key
  token : ∀ i a, tokens[i]? = some a → ∃ id, t.Stops root id ∧
    f.key? id = some ⟨i, i + 1, .symbol a⟩

variable {g : Grammar} {tokens : List Symbol}

/-- A leaf that covers a position is the token there. -/
theorem Leaf.eq_token {key : NodeKey} {i : Nat} {a : Symbol} (h : Leaf tokens key)
    (hstart : key.start ≤ i) (hstop : i < key.stop) (ha : tokens[i]? = some a) :
    key = ⟨i, i + 1, .symbol a⟩ := by
  rcases h with ⟨j, rfl⟩ | ⟨j, b, hb, rfl⟩
  · exact absurd hstart (Nat.not_le_of_lt hstop)
  · obtain rfl : j = i := by
      change j ≤ i at hstart
      change i < j + 1 at hstop
      omega
    rw [Option.some.inj (hb.symm.trans ha)]

namespace Parse.Exact

variable {p : Parse} {root id : NodeId} {l : List Choice} {n : Node}

/-- A node that is entered is in the forest. -/
theorem exists_node (hp : p.Exact g tokens) (hroot : p.root? = some root)
    (h : Unfolds p.forest [] [root] l) (hid : id ∈ root :: l.flatMap Choice.children) :
    ∃ n, p.forest.nodes[id]? = some n := by
  have hkey : ∃ key, p.forest.key? id = some key := by
    rcases List.mem_cons.mp hid with rfl | hid
    · exact ⟨_, hp.root id hroot⟩
    · obtain ⟨c, hc, hchild⟩ := List.mem_flatMap.mp hid
      obtain ⟨-, -, -, l?, r, hnames, -⟩ := hp.forest.valid.choice (h.walks.mem_choicesAt hc)
      obtain ⟨k, hk, -⟩ := hnames.child hchild
      exact ⟨k, hk⟩
  obtain ⟨key, hkey⟩ := hkey
  obtain ⟨n, hn, -⟩ := Forest.key?_eq_some_iff.mp hkey
  exact ⟨n, hn⟩

/-- **A derivation stops at leaves only.** -/
theorem stops_leaf (hp : p.Exact g tokens) (hroot : p.root? = some root)
    (h : Unfolds p.forest [] [root] l) (hstop : (⟨l.reverse, []⟩ : PartialTree).Stops root id) :
    ∃ key, p.forest.key? id = some key ∧ Leaf tokens key := by
  obtain ⟨hmem, hnone⟩ := h.stops_iff.mp hstop
  obtain ⟨n, hn⟩ := hp.exists_node hroot h hmem
  exact ⟨n.key, Forest.key?_eq_some_iff.mpr ⟨n, hn, rfl⟩, hp.leaf_of_choicesAt hn hnone⟩

theorem covers_root (hp : p.Exact g tokens) (hroot : p.root? = some root) {i : Nat}
    (hi : i < tokens.length) : p.forest.covers i root = true := by
  rw [Forest.covers_of_key? (hp.root root hroot)]
  simpa using hi

/-- A node that has families ends within the text. -/
theorem stop_le (hp : p.Exact g tokens) (hn : n ∈ p.forest.nodes) (hne : n.families ≠ []) :
    n.key.stop ≤ tokens.length := by
  obtain ⟨fam, hfam⟩ := List.exists_mem_of_ne_nil _ hne
  obtain ⟨l?, r, -, hgrown⟩ := hp.forest.grown n hn fam hfam
  obtain ⟨it, hit, -, -⟩ := hgrown.exists_fits
  exact hit.stop_le

theorem count_entered (l : List Choice) (root id : NodeId) :
    ((⟨l.reverse, []⟩ : PartialTree).entered root).count id =
      (root :: l.flatMap Choice.children).count id :=
  (PartialTree.entered_perm l root).count_eq id

/-- A derivation that consumes the text enters no wide node more often than it has families: the
node covers the token where it starts, and the trail there ends at the token. -/
theorem count_le_of_consumes (hp : p.Exact g tokens) (hroot : p.root? = some root)
    (h : Unfolds p.forest [] [root] l)
    (hcons : (⟨l.reverse, []⟩ : PartialTree).Consumes p.forest tokens root)
    (hn : p.forest.nodes[id]? = some n) (hwide : n.key.start < n.key.stop) (hne : n.families ≠ []) :
    ((⟨l.reverse, []⟩ : PartialTree).entered root).count id ≤ n.families.length := by
  have hlt : n.key.start < tokens.length :=
    Nat.lt_of_lt_of_le hwide (hp.stop_le (List.mem_of_getElem? hn) hne)
  have hcov := Forest.covers_start (Forest.key?_eq_some_iff.mpr ⟨n, hn, rfl⟩) hwide
  obtain ⟨x, -, -, hx, hothers⟩ := h.exists_last hp.forest.valid (hp.covers_root hroot hlt)
  obtain ⟨y, hstop, hy⟩ := hcons.token n.key.start _ (List.getElem?_eq_getElem hlt)
  obtain ⟨hymem, hynone⟩ := h.stops_iff.mp hstop
  have hyx : y = x := by
    by_contra hne
    have hycov : p.forest.covers n.key.start y = true := by
      rw [Forest.covers_of_key? hy]
      simp
    have hle := hothers y hycov hne
    have hpos := List.count_pos_iff.mpr hymem
    rw [hynone, List.length_nil] at hle
    omega
  have hidx : id ≠ x := by
    rintro rfl
    have hlen := Forest.length_choicesAt hn
    rw [← hyx, hynone, List.length_nil] at hlen
    exact hne (List.length_eq_zero_iff.mp hlen.symm)
  rw [count_entered, ← Forest.length_choicesAt hn]
  exact hothers id hcov hidx

/-- Where no wide node is entered too often, the last node of each position is the token. -/
theorem consumes_of_count_le (hp : p.Exact g tokens) (hroot : p.root? = some root)
    (h : Unfolds p.forest [] [root] l)
    (hbound : ∀ id n, p.forest.nodes[id]? = some n → n.key.start < n.key.stop → n.families ≠ [] →
      ((⟨l.reverse, []⟩ : PartialTree).entered root).count id ≤ n.families.length) :
    (⟨l.reverse, []⟩ : PartialTree).Consumes p.forest tokens root := by
  refine ⟨fun id hstop => hp.stops_leaf hroot h hstop, fun i a ha => ?_⟩
  have hlt := (List.getElem?_eq_some_iff.mp ha).1
  obtain ⟨x, hxmem, hxcov, hx, -⟩ := h.exists_last hp.forest.valid (hp.covers_root hroot hlt)
  obtain ⟨n, hn⟩ := hp.exists_node hroot h hxmem
  have hkey : p.forest.key? x = some n.key := Forest.key?_eq_some_iff.mpr ⟨n, hn, rfl⟩
  rw [Forest.covers_of_key? hkey, decide_eq_true_eq] at hxcov
  obtain ⟨hstart, hstop⟩ := hxcov
  have hnone : p.forest.choicesAt x = [] := by
    by_contra hne
    have hfams : n.families ≠ [] := by
      rw [← List.length_pos_iff, ← Forest.length_choicesAt hn]
      exact List.length_pos_iff.mpr hne
    have hle := hbound x n hn (by omega) hfams
    rw [count_entered, hx, Forest.length_choicesAt hn] at hle
    omega
  refine ⟨x, h.stops_iff.mpr ⟨hxmem, hnone⟩, ?_⟩
  rw [hkey, (hp.leaf_of_choicesAt hn hnone).eq_token hstart hstop ha]

/-- **A derivation consumes the text exactly when no trail gets lost**: when no node of positive
width is entered more often than it has families. -/
theorem consumes_iff (hp : p.Exact g tokens) (hroot : p.root? = some root)
    (h : Unfolds p.forest [] [root] l) :
    (⟨l.reverse, []⟩ : PartialTree).Consumes p.forest tokens root ↔
      ∀ id n, p.forest.nodes[id]? = some n → n.key.start < n.key.stop → n.families ≠ [] →
        ((⟨l.reverse, []⟩ : PartialTree).entered root).count id ≤ n.families.length :=
  ⟨fun hcons _ _ hn hwide hne => hp.count_le_of_consumes hroot h hcons hn hwide hne,
    hp.consumes_of_count_le hroot h⟩

/-- Without circles no wide node is entered twice. -/
theorem count_le_one_of_acyclic (hp : p.Exact g tokens) (hg : g.Unmarked)
    (hT : ∀ t ∈ tokens, g.isNonterminal t = false) (hacyc : g.Acyclic)
    (hroot : p.root? = some root) (h : Unfolds p.forest [] [root] l) {i : Nat}
    (hid : p.forest.covers i id = true) : (root :: l.flatMap Choice.children).count id ≤ 1 := by
  have hnodup := h.walks.nodup_covering (p := i) hp.forest.valid (fun y hy x hx => by
    rw [List.mem_singleton.mp hy] at hx
    exact hp.acyclic hg hT hacyc (hp.root root hroot) hg.label_start_ne hx)
    (Nat.le_trans List.countP_le_length (by simp))
  rw [← List.count_filter hid]
  exact List.nodup_iff_count_le_one.mp hnodup id

/-- **Without circles every derivation consumes the text.** -/
theorem consumes_of_acyclic (hp : p.Exact g tokens) (hg : g.Unmarked)
    (hT : ∀ t ∈ tokens, g.isNonterminal t = false) (hacyc : g.Acyclic)
    (hroot : p.root? = some root) (h : Unfolds p.forest [] [root] l) :
    (⟨l.reverse, []⟩ : PartialTree).Consumes p.forest tokens root := by
  rw [hp.consumes_iff hroot h]
  intro id n hn hwide hne
  have hcov := Forest.covers_start (Forest.key?_eq_some_iff.mpr ⟨n, hn, rfl⟩) hwide
  rw [count_entered]
  exact Nat.le_trans (hp.count_le_one_of_acyclic hg hT hacyc hroot h hcov)
    (List.length_pos_iff.mpr hne)

end Parse.Exact

/-- **When derivations consume the text.** Each derivation taken out of the forest of a parse
stops at tokens and empty leaves only; it stops at all the tokens exactly when it enters no
node of positive width more often than the node has families, and that is so wherever no
nonterminal derives itself. -/
theorem Grammar.parse_consumes_iff (hg : g.Unmarked) (hne : tokens ≠ [])
    (hT : ∀ t ∈ tokens, g.isNonterminal t = false) :
    ∃ p, g.parse tokens = .ok p ∧ ∀ root, p.root? = some root →
      ∀ t, PartialTree.Yielded p.forest root t →
        (∀ id, t.Stops root id → ∃ key, p.forest.key? id = some key ∧ Leaf tokens key) ∧
        (t.Consumes p.forest tokens root ↔
          ∀ id n, p.forest.nodes[id]? = some n → n.key.start < n.key.stop → n.families ≠ [] →
            (t.entered root).count id ≤ n.families.length) ∧
        (g.Acyclic → t.Consumes p.forest tokens root) := by
  obtain ⟨p, hp, hexact⟩ := g.parse_spec hne
  refine ⟨p, hp, fun root hroot t ht => ?_⟩
  obtain ⟨l, hl, rfl⟩ := Forest.mem_trees_iff.mp (PartialTree.yielded_iff.mp ht)
  exact ⟨fun id hstop => hexact.stops_leaf hroot hl hstop, hexact.consumes_iff hroot hl,
    fun hacyc => hexact.consumes_of_acyclic hg hT hacyc hroot hl⟩

/-- The theorem at a grammar with a circle, which some derivations of `a` go round. -/
theorem Grammar.parse_consumes_iff_circle :
    let g := Grammar.ofRules "S" [⟨"S", ["M"]⟩, ⟨"M", ["S"]⟩, ⟨"M", ["a"]⟩]
    ∃ p, g.parse ["a"] = .ok p ∧ ∀ root, p.root? = some root →
      ∀ t, PartialTree.Yielded p.forest root t →
        (∀ id, t.Stops root id → ∃ key, p.forest.key? id = some key ∧ Leaf ["a"] key) ∧
        (t.Consumes p.forest ["a"] root ↔
          ∀ id n, p.forest.nodes[id]? = some n → n.key.start < n.key.stop → n.families ≠ [] →
            (t.entered root).count id ≤ n.families.length) ∧
        (g.Acyclic → t.Consumes p.forest ["a"] root) :=
  Grammar.parse_consumes_iff (by decide) (by decide) (by decide)

/-- On that circle a derivation goes from `S` to `M`, back to `S`, and ends there without the
token. -/
theorem Grammar.parse_not_consumes :
    let g := Grammar.ofRules "S" [⟨"S", ["M"]⟩, ⟨"M", ["S"]⟩, ⟨"M", ["a"]⟩]
    g.Unmarked ∧ (∀ t ∈ ["a"], g.isNonterminal t = false) ∧
      ∃ p root t, g.parse ["a"] = .ok p ∧ p.root? = some root ∧
        PartialTree.Yielded p.forest root t ∧ ¬ t.Consumes p.forest ["a"] root := by
  intro g
  refine ⟨by decide, by decide, ?_⟩
  let f : Forest := ⟨[⟨⟨0, 1, .symbol "a"⟩, []⟩, ⟨⟨0, 1, .symbol "M"⟩, [⟨none, 0⟩, ⟨none, 2⟩]⟩,
    ⟨⟨0, 1, .symbol "S"⟩, [⟨none, 1⟩]⟩, ⟨⟨0, 1, .symbol Grammar.startMark⟩, [⟨none, 2⟩]⟩]⟩
  have hparse : (g.parse ["a"]).toOption.map (fun p => (p.forest, p.root?)) = some (f, some 2) := by
    decide +kernel
  obtain ⟨p, hp, hfr⟩ := Option.map_eq_some_iff.mp hparse
  obtain ⟨hf, hroot⟩ : p.forest = f ∧ p.root? = some 2 := Prod.mk.inj hfr
  have hok : g.parse ["a"] = .ok p := by
    cases h : g.parse ["a"] with
    | error e => simp [h, Except.toOption] at hp
    | ok q => simpa [h, Except.toOption] using hp
  -- first the only family of `S`, then the second family of `M`
  let l : List Choice := [⟨2, 0, ⟨none, 1⟩⟩, ⟨1, 1, ⟨none, 2⟩⟩]
  have hunfolds : Unfolds f [] [2] l := by
    refine .pick (by decide) (by decide) (.pick (by decide) (by decide) (.skip (by decide) .done))
  refine ⟨p, 2, ⟨l.reverse, []⟩, hok, hroot, ?_, ?_⟩
  · rw [PartialTree.yielded_iff, Forest.mem_trees_iff, hf]
    exact ⟨l, hunfolds, rfl⟩
  · intro hcons
    rw [hf] at hcons
    obtain ⟨id, hstop, hkey⟩ := hcons.token 0 "a" rfl
    obtain ⟨hmem, hnone⟩ := hunfolds.stops_iff.mp hstop
    have hids : id = 2 ∨ id = 1 ∨ id = 2 := by simpa [l, Choice.children] using hmem
    rcases hids with rfl | rfl | rfl <;> exact absurd hnone (by decide)

end Parsing
