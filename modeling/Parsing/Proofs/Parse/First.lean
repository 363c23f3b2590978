/-
# The first derivation

Some derivations taken out of the forest of a parse lose tokens on a circle, but the first
one never does. It makes first choices only, and the first family of a node came together
with the node, when its children were there already (`Parse.Exact.lt_or_epsilon`). So no node
of positive width is entered twice, and along each position the derivation can only end at
the token.

Key theorems: `Parse.Exact.lt_or_epsilon`, `Parse.Exact.consumes_first`,
`Grammar.parse_first_consumes`.
-/
import Parsing.Proofs.Forest.Leading
import Parsing.Proofs.Parse.Coverage

namespace Parsing

variable {g : Grammar} {tokens : List Symbol}

theorem Under.stop_eq_of_epsilon {a b : NodeKey} (h : Under g tokens a b)
    (hb : b.label = .epsilon) : b.stop = b.start := by
  have hfront : ∀ {A : Symbol} {before after : List Symbol},
      Label.front A before after ≠ .epsilon := by
    intro A before after e
    unfold Label.front at e
    split at e <;> cases e
  obtain ⟨l?, r, hp, hchild⟩ := h
  cases hp with
  | empty =>
    obtain rfl := hchild.resolve_left (by simp)
    rfl
  | unit =>
    obtain rfl := hchild.resolve_left (by simp)
    cases hb
  | rule | part =>
    rcases hchild with hchild | rfl
    · cases hchild
      exact absurd hb hfront
    · cases hb

namespace Parse.Exact

variable {p : Parse} {root id : NodeId} {l : List Choice}

/-- **The first family of a node was there first**: below the root, its children were created
before the node, save for the empty leaf. -/
theorem lt_or_epsilon (hp : p.Exact g tokens) (hg : g.Unmarked)
    (hT : ∀ t ∈ tokens, g.isNonterminal t = false) (hroot : p.root? = some root)
    (h : Relation.ReflTransGen p.forest.Child root id) {c : Choice} {others : List Choice}
    (hall : p.forest.choicesAt id = c :: others) {y : NodeId} (hy : y ∈ c.children) :
    y < id ∨ ∃ key, p.forest.key? y = some key ∧ key.label = .epsilon := by
  have hc : c ∈ p.forest.choicesAt id := hall ▸ List.mem_cons_self
  obtain ⟨key, hid, hmark⟩ := hp.exists_key hg hT (hp.root root hroot) hg.label_start_ne h
  obtain ⟨l?, r, -, hpacked⟩ := hp.packed hg hT hid hmark hc
  obtain ⟨n, hn, rfl⟩ := Forest.key?_eq_some_iff.mp hid
  exact hp.forest.early id n hn (hpacked.not_leaf hT) c.family (Forest.head?_families hn hall) y hy

/-- Below the root the first choices at all nodes descend. -/
theorem descends (hp : p.Exact g tokens) (hg : g.Unmarked)
    (hT : ∀ t ∈ tokens, g.isNonterminal t = false) (hroot : p.root? = some root) (i : Nat)
    (h : Relation.ReflTransGen p.forest.Child root id) : p.forest.Descends i id := by
  intro c others hall y hy hcov
  refine (hp.lt_or_epsilon hg hT hroot h hall hy).resolve_right ?_
  rintro ⟨k, hk, he⟩
  have hc : c ∈ p.forest.choicesAt id := hall ▸ List.mem_cons_self
  obtain ⟨key, hid, hmark⟩ := hp.exists_key hg hT (hp.root root hroot) hg.label_start_ne h
  obtain ⟨k', hk', hunder⟩ := hp.under hg hT hid hmark ⟨c, hc, hy⟩
  obtain rfl : k = k' := Option.some.inj (hk.symm.trans hk')
  have hempty := hunder.stop_eq_of_epsilon he
  rw [Forest.covers_of_key? hk, decide_eq_true_eq] at hcov
  omega

/-- **The first derivation enters no wide node twice.** -/
theorem count_le_one (hp : p.Exact g tokens) (hg : g.Unmarked)
    (hT : ∀ t ∈ tokens, g.isNonterminal t = false) (hroot : p.root? = some root)
    (h : Leads p.forest [] [root] l) {i : Nat} (hid : p.forest.covers i id = true) :
    (root :: l.flatMap Choice.children).count id ≤ 1 := by
  have hd : p.forest.Descending i [] [root] := by
    refine ⟨fun y hy x hx => ?_, Nat.le_trans List.countP_le_length (by simp), by simp⟩
    rw [List.mem_singleton.mp hy] at hx
    exact hp.descends hg hT hroot i hx
  rw [← List.count_filter hid]
  exact List.nodup_iff_count_le_one.mp ((h.descending hp.forest.valid hd).imp Nat.ne_of_gt) id

/-- **The first derivation consumes the text.** -/
theorem consumes_first (hp : p.Exact g tokens) (hg : g.Unmarked)
    (hT : ∀ t ∈ tokens, g.isNonterminal t = false) (hroot : p.root? = some root)
    (h : Leads p.forest [] [root] l) :
    (⟨l.reverse, []⟩ : PartialTree).Consumes p.forest tokens root := by
  refine hp.consumes_of_count_le hroot h.unfolds fun id n hn hwide hne => ?_
  have hid := Forest.covers_start (Forest.key?_eq_some_iff.mpr ⟨n, hn, rfl⟩) hwide
  rw [count_entered]
  exact Nat.le_trans (hp.count_le_one hg hT hroot h hid) (List.length_pos_iff.mpr hne)

theorem root_ne (hp : p.Exact g tokens) (hg : g.Unmarked)
    (hT : ∀ t ∈ tokens, g.isNonterminal t = false) (hroot : p.root? = some root) {i : Nat}
    {a : Symbol} (ha : tokens[i]? = some a) (hid : p.forest.key? id = some ⟨i, i + 1, .symbol a⟩) :
    root ≠ id := by
  rintro rfl
  -- as the tokens are accepted, the start symbol has rules
  obtain ⟨r, hr, hlhs, -⟩ :=
    (hp.accepts.trans (Fits.exists_done_iff hg hT)).mp (Option.isSome_of_mem hroot)
  have hkey := Option.some.inj ((hp.root root hroot).symm.trans hid)
  have hstart : g.start = a := Label.symbol.inj (congrArg NodeKey.label hkey)
  have hterm := hT a (List.mem_of_getElem? ha)
  exact Grammar.isNonterminal_eq_false_iff.mp hterm r hr (hlhs.trans hstart)

/-- The first derivation comes to each token by one edge. -/
theorem count_token (hp : p.Exact g tokens) (hg : g.Unmarked)
    (hT : ∀ t ∈ tokens, g.isNonterminal t = false) (hroot : p.root? = some root)
    (h : Leads p.forest [] [root] l) {i : Nat} {a : Symbol} (ha : tokens[i]? = some a)
    (hid : p.forest.key? id = some ⟨i, i + 1, .symbol a⟩) :
    ((⟨l.reverse, []⟩ : PartialTree).edges.map (·.2)).count id = 1 := by
  obtain ⟨x, hstop, hx⟩ := (hp.consumes_first hg hT hroot h).token i a ha
  obtain rfl : id = x := hp.forest.valid.key_inj hid hx
  have hcov : p.forest.covers i id = true := by
    rw [Forest.covers_of_key? hid]
    simp
  have hle := hp.count_le_one hg hT hroot h hcov
  have hpos := List.count_pos_iff.mpr (h.unfolds.stops_iff.mp hstop).1
  have hentered := count_entered l root id
  rw [PartialTree.entered, List.count_cons_of_ne (hp.root_ne hg hT hroot ha hid)] at hentered
  omega

end Parse.Exact

/-- **The first derivation is genuine.** On every accepted text there is a first derivation. The
nodes of positive width at which it stops are exactly the tokens, each over its own place, and
it comes to each of them by one edge. The grammar may have circles and empty rules. -/
theorem Grammar.parse_first_consumes (hg : g.Unmarked) (hne : tokens ≠ [])
    (hT : ∀ t ∈ tokens, g.isNonterminal t = false) :
    ∃ p, g.parse tokens = .ok p ∧ ∀ root, p.root? = some root →
      ∃ t rest, p.forest.next? [.ofRoot root] = some (t, rest) ∧
        (∀ id key, p.forest.key? id = some key → key.start < key.stop →
          (t.Stops root id ↔ ∃ i a, tokens[i]? = some a ∧ key = ⟨i, i + 1, .symbol a⟩)) ∧
        ∀ i a, tokens[i]? = some a → ∃ id, p.forest.key? id = some ⟨i, i + 1, .symbol a⟩ ∧
          t.Stops root id ∧ (t.edges.map (·.2)).count id = 1 := by
  obtain ⟨p, hp, hexact⟩ := g.parse_spec hne
  refine ⟨p, hp, fun root hroot => ?_⟩
  obtain ⟨l, hl⟩ := Forest.exists_leads (f := p.forest) (.ofRoot root)
  have hl : Leads p.forest [] [root] l := hl
  obtain ⟨rest, hnext⟩ := hl.next?
  have hcons := hexact.consumes_first hg hT hroot hl
  refine ⟨⟨l.reverse, []⟩, rest, hnext, fun id key hid hwide => ⟨fun hstop => ?_, ?_⟩,
    fun i a ha => ?_⟩
  · obtain ⟨key', hid', hleaf⟩ := hcons.leaf id hstop
    obtain rfl : key = key' := Option.some.inj (hid.symm.trans hid')
    rcases hleaf with ⟨i, rfl⟩ | hleaf
    · exact absurd hwide (Nat.lt_irrefl i)
    · exact hleaf
  · rintro ⟨i, a, ha, rfl⟩
    obtain ⟨x, hstop, hx⟩ := hcons.token i a ha
    exact hexact.forest.valid.key_inj hx hid ▸ hstop
  · obtain ⟨id, hstop, hid⟩ := hcons.token i a ha
    exact ⟨id, hid, hstop, hexact.count_token hg hT hroot hl ha hid⟩

/-- The theorem at a grammar with a circle and an empty rule. -/
theorem Grammar.parse_first_consumes_circle :
    let g := Grammar.ofRules "S" [⟨"S", ["M"]⟩, ⟨"M", ["S", "E"]⟩, ⟨"M", ["a"]⟩, ⟨"E", []⟩]
    ∃ p, g.parse ["a"] = .ok p ∧ ∀ root, p.root? = some root →
      ∃ t rest, p.forest.next? [.ofRoot root] = some (t, rest) ∧
        (∀ id key, p.forest.key? id = some key → key.start < key.stop →
          (t.Stops root id ↔ ∃ i a, ["a"][i]? = some a ∧ key = ⟨i, i + 1, .symbol a⟩)) ∧
        ∀ i a, ["a"][i]? = some a → ∃ id, p.forest.key? id = some ⟨i, i + 1, .symbol a⟩ ∧
          t.Stops root id ∧ (t.edges.map (·.2)).count id = 1 :=
  Grammar.parse_first_consumes (by decide) (by decide) (by decide)

end Parsing
