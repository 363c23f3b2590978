/-
# The language of a parse

On tokens without rules, and with a grammar that does not mention the reserved symbol,
fitting and deriving are the same: what stands before the dot of an item that fits
derives its text by the rules of the grammar alone, and a symbol spans a stretch of
the text exactly when it derives it.

So a parse accepts exactly the texts that some rule for the start symbol derives, be
the grammar left-recursive, nullable or cyclic, and the root is then the node of the
start symbol over the whole text.

Key theorems: `Fits.derives_rules`, `Fits.spans_iff`, `Grammar.parse_language`.
-/
import Parsing.Proofs.Parse.Exact

namespace Parsing

variable {g : Grammar} {tokens : List Symbol} {it : Item} {o k i : Nat}

/-- The start rule adds nothing to what stands before a dot. -/
theorem Fits.derives_rules (hg : g.Unmarked) (h : Fits g .literal tokens it o i) :
    Derives g.rules (it.rule.rhs.take it.dot) (stretch tokens o i) := by
  have hd := h.derives (List.Subset.refl g.augmented) fun s t hst => by
    cases hst
    exact .refl [s]
  refine hd.of_augmented hg fun hmem => ?_
  have hmem := List.mem_of_mem_take hmem
  rcases List.mem_cons.mp h.rule_mem with e | hr
  · rw [e] at hmem
    exact hg.1 (List.mem_singleton.mp hmem).symm
  · exact (hg.2 _ hr).2 hmem

theorem Fits.derives_lhs (hg : g.Unmarked) (h : Fits g .literal tokens it o i)
    (hc : it.isComplete = true) : Derives g.rules it.rule.rhs (stretch tokens o i) := by
  have hd := h.derives_rules hg
  rwa [Item.take_dot_of_isComplete hc] at hd

/-- The rules for the start symbol are entered at the first position. -/
theorem Fits.entered (hT : ∀ t ∈ tokens, g.isNonterminal t = false) {r : Rule} (hr : r ∈ g.rules)
    (hl : r.lhs = g.start) : Fits g .literal tokens (.atStart r) 0 0 := by
  have hx : Reading.literal.expands g.start tokens[0]? :=
    hl ▸ (Reading.literal_plain hT).expands r hr 0
  exact .predict .start rfl hx (Grammar.mem_rulesFor.mpr ⟨hr, hl⟩)

/-- **What a symbol spans it derives, and the other way round**, behind an item that waits
for it. -/
theorem Fits.spans_iff (hg : g.Unmarked) (hT : ∀ t ∈ tokens, g.isNonterminal t = false)
    (h : Fits g .literal tokens it o k) {s : Symbol} (hs : it.next? = some s) :
    Spans g tokens s k i ↔
      k ≤ i ∧ i ≤ tokens.length ∧ Derives g.rules [s] (stretch tokens k i) := by
  have hmark := h.next?_ne hg hs
  constructor
  · rintro (⟨ht, rfl⟩ | ⟨-, done, hd, hc, rfl⟩)
    · have hlt := (List.getElem?_eq_some_iff.mp ht).1
      refine ⟨Nat.le_succ k, hlt, ?_⟩
      rw [stretch_single ht]
      exact .refl [s]
    · refine ⟨hd.origin_le, hd.stop_le, ?_⟩
      exact (Derives.of_rule (hd.rule_mem_rules hmark)).trans (hd.derives_lhs hg hc)
  · rintro ⟨hk, hi, hd⟩
    have hterm : ∀ a ∈ stretch tokens k i, ∀ r ∈ g.rules, r.lhs ≠ a := fun a ha =>
      Grammar.isNonterminal_eq_false_iff.mp (hT a (mem_of_mem_stretch ha))
    obtain ⟨t, hv, rfl, hy⟩ := (derives_iff_exists_tree hterm).mp hd
    cases t with
    | leaf a =>
      have hlen := congrArg List.length hy
      rw [length_stretch hi, Tree.yield, List.length_singleton] at hlen
      obtain rfl : i = k + 1 := by omega
      exact .inl ⟨getElem?_of_stretch hy.symm, rfl⟩
    | node lhs row =>
      have hne := (Reading.literal_plain hT).expands _ hv.1 k
      have hentry : Fits g .literal tokens (.dotted lhs [] (row.symbols ++ [])) k k := by
        have := Fits.predict h hs hne (Grammar.mem_rulesFor.mpr ⟨hv.1, rfl⟩)
        simpa [Item.dotted, Item.atStart] using this
      have hdone := row.moves (Reading.literal_plain hT).expands hv.2 hentry hk hi
        ((Reading.literal_plain hT).forall₂ hy)
      exact .inr ⟨hne, _, hdone, Item.isComplete_dotted_nil _ _, rfl⟩

/-- Some item completes the start symbol over the whole text exactly when some rule for it
derives the text. -/
theorem Fits.exists_done_iff (hg : g.Unmarked) (hT : ∀ t ∈ tokens, g.isNonterminal t = false) :
    (∃ done, Fits g .literal tokens done 0 tokens.length ∧ done.isComplete = true ∧
        done.lhs = g.start) ↔
      ∃ r ∈ g.rules, r.lhs = g.start ∧ Derives g.rules r.rhs tokens := by
  constructor
  · rintro ⟨done, hd, hc, hl⟩
    have hr := hd.rule_mem_rules fun e => hg.1 (hl.symm.trans e)
    have hder := hd.derives_lhs hg hc
    rw [stretch_all] at hder
    exact ⟨done.rule, hr, hl, hder⟩
  · rintro ⟨r, hr, hl, hd⟩
    refine ⟨⟨r, r.rhs.length, Nat.le_refl _⟩, ?_, by simp [Item.isComplete], hl⟩
    refine .of_derives_before (Reading.literal_plain hT) hT (.entered hT hr hl) (Nat.zero_le _)
      (Nat.le_refl _) ?_
    rwa [stretch_all, List.take_length]

/-- **A parse accepts the language of the grammar.** On tokens without rules a parse ends, it
has a root exactly when some rule for the start symbol derives the tokens, and the root is
the node of the start symbol over all of them. -/
theorem Grammar.parse_language (hg : g.Unmarked) (hne : tokens ≠ [])
    (hT : ∀ t ∈ tokens, g.isNonterminal t = false) :
    ∃ p, g.parse tokens = .ok p ∧
      (p.root?.isSome = true ↔ ∃ r ∈ g.rules, r.lhs = g.start ∧ Derives g.rules r.rhs tokens) ∧
      ∀ root, p.root? = some root → ∃ n, p.forest.nodes[root]? = some n ∧
        n.key = ⟨0, tokens.length, .symbol g.start⟩ := by
  obtain ⟨p, hp, hexact⟩ := g.parse_spec hne
  refine ⟨p, hp, hexact.accepts.trans (Fits.exists_done_iff hg hT), ?_⟩
  intro root hroot
  exact Forest.key?_eq_some_iff.mp (hexact.root root hroot)

/-- The theorem at a grammar with hidden left recursion, a cycle and nullable symbols. -/
theorem Grammar.parse_language_hidden :
    let g := Grammar.ofRules "S"
      [⟨"S", ["A", "S", "a"]⟩, ⟨"S", ["S"]⟩, ⟨"S", []⟩, ⟨"A", ["A"]⟩, ⟨"A", []⟩]
    ∃ p, g.parse ["a", "a"] = .ok p ∧
      (p.root?.isSome = true ↔ ∃ r ∈ g.rules, r.lhs = g.start ∧ Derives g.rules r.rhs ["a", "a"]) ∧
      ∀ root, p.root? = some root → ∃ n, p.forest.nodes[root]? = some n ∧
        n.key = ⟨0, 2, .symbol g.start⟩ :=
  Grammar.parse_language (by decide) (by decide) (by decide)

end Parsing
