/-
# Three ways to accept

A parse, a chart and a search for a leftmost derivation decide in different ways what a token is.
A chart and a search read a symbol from the tokens only if it has no rules. A parse reads whatever
symbol is the token ahead, so a token can stand for a symbol with rules. And a search begins with
the start symbol in the place of the tokens, so it takes a start symbol without rules for a token,
where a parse and a chart want a rule for it.

These are the only differences. On tokens without rules, and with rules for the start symbol, the
three accept the same texts; a parse differs from a chart exactly on the texts with a token that
has rules that it accepts, and a search that ends differs from a chart exactly on the start symbol
alone when that has no rules.

Key theorems: `Grammar.standsFor_empty_iff`, `Grammar.acceptance_agrees_iff`.
-/
import Parsing.Proofs.Chart.Agreement
import Parsing.Proofs.Chart.Valid
import Parsing.Proofs.Leftmost

namespace Parsing

variable {g : Grammar} {tokens : List Symbol}

/-- Without lexicon a row stands for the texts without rules that it derives. -/
theorem Grammar.standsFor_empty_iff {u : List Symbol} :
    g.StandsFor .empty u tokens ↔
      (∀ t ∈ tokens, g.isNonterminal t = false) ∧ Derives g.rules u tokens := by
  constructor
  · rintro ⟨w, hd, hw⟩
    have hsame : List.Forall₂ (fun s t => g.isNonterminal s = false ∧ s = t) w tokens :=
      hw.imp fun s t => Grammar.reads_empty_iff.mp
    have heq : w = tokens := List.forall₂_eq_eq_eq ▸ hsame.imp fun s t h => h.2
    subst heq
    refine ⟨fun t ht => ?_, hd⟩
    obtain ⟨i, hi, rfl⟩ := List.getElem_of_mem ht
    exact (List.forall₂_iff_get.mp hsame |>.2 i hi hi).1
  · rintro ⟨hT, hd⟩
    refine ⟨tokens, hd, List.forall₂_same.mpr fun t ht => ?_⟩
    exact Grammar.reads_empty_iff.mpr ⟨hT t ht, rfl⟩

/-- A chart without lexicon accepts the texts without rules that some rule for the start symbol
derives. -/
theorem Chart.Exact.accepted_iff {c : Chart} (hg : g.Unmarked)
    (h : c.Exact (Fits g (g.lexical .empty) tokens) g tokens) :
    c.accepted = true ↔ (∀ t ∈ tokens, g.isNonterminal t = false) ∧
      ∃ r ∈ g.rules, r.lhs = g.start ∧ Derives g.rules r.rhs tokens := by
  have hlex : Lexicon.empty.Apart g := by simp [Lexicon.Apart, Lexicon.empty]
  rw [h.accepted, Grammar.exists_done_iff_standsFor hg hlex]
  simp only [Grammar.standsFor_empty_iff]
  constructor
  · rintro ⟨r, hr, hl, hT, hd⟩
    exact ⟨hT, r, hr, hl, hd⟩
  · rintro ⟨hT, r, hr, hl, hd⟩
    exact ⟨r, hr, hl, hT, hd⟩

theorem Parse.Exact.accepts_eq {p : Parse} {c : Chart} (hg : g.Unmarked)
    (hT : ∀ t ∈ tokens, g.isNonterminal t = false) (hp : p.Exact g tokens)
    (hc : c.Exact (Fits g (g.lexical .empty) tokens) g tokens) : p.accepts = c.accepted := by
  rw [Bool.eq_iff_iff, hp.accepts, hc.accepted]
  simp only [Fits.literal_iff_lexical hg hT]

/-- **Where the three ways to accept agree.** A parse and a chart never fail on a text. The parse
agrees with the chart unless it accepts a text in which some token has rules. A search that ends
agrees with the chart unless the text is a start symbol without rules. -/
theorem Grammar.acceptance_agrees_iff (hg : g.Unmarked) (hne : tokens ≠ []) :
    ∃ p c, g.parse tokens = .ok p ∧ g.chart .empty tokens = .ok c ∧
      (p.accepts = c.accepted ↔
        (p.accepts = true → ∀ t ∈ tokens, g.isNonterminal t = false)) ∧
      ∀ strategy looks, g.leftmost tokens strategy looks ≠ .unfinished →
        ((g.leftmost tokens strategy looks).isDerived = c.accepted ↔
          ¬ (tokens = [g.start] ∧ g.isNonterminal g.start = false)) := by
  have hlex : Lexicon.empty.Apart g := by simp [Lexicon.Apart, Lexicon.empty]
  obtain ⟨p, hp, hparse⟩ := g.parse_spec hne
  obtain ⟨c, hc, hchart⟩ := g.chart_spec hg hlex tokens
  have hacc := hchart.accepted_iff hg
  refine ⟨p, c, hp, hc, ⟨fun heq ha => (hacc.mp (heq ▸ ha)).1, fun h => ?_⟩, ?_⟩
  · cases ha : p.accepts with
    | true => rw [← ha, hparse.accepts_eq hg (h ha) hchart]
    | false =>
      by_contra hdiff
      have hT := (hacc.mp (by simpa using Ne.symm hdiff)).1
      exact hdiff (ha ▸ hparse.accepts_eq hg hT hchart)
  · intro strategy looks hfin
    rw [Bool.eq_iff_iff, g.leftmost_iff tokens strategy hfin, hacc, Derives.singleton_iff]
    constructor
    · rintro h ⟨rfl, hstart⟩
      have hT : ∀ t ∈ [g.start], g.isNonterminal t = false := by simpa using hstart
      obtain ⟨-, r, hr, hl, -⟩ := h.mp ⟨hT, .inl rfl⟩
      exact Grammar.isNonterminal_eq_false_iff.mp hstart r hr hl
    · intro h
      refine and_congr_right fun hT => ⟨?_, .inr⟩
      rintro (rfl | hd)
      · exact absurd ⟨rfl, hT _ (List.mem_singleton_self _)⟩ h
      · exact hd

/-- The theorem at a grammar with a nullable symbol, for a token that has rules. -/
theorem Grammar.acceptance_agrees_iff_named :
    let g := Grammar.ofRules "S" [⟨"S", ["A"]⟩, ⟨"A", ["a"]⟩, ⟨"A", []⟩]
    ∃ p c, g.parse ["A"] = .ok p ∧ g.chart .empty ["A"] = .ok c ∧
      (p.accepts = c.accepted ↔ (p.accepts = true → ∀ t ∈ ["A"], g.isNonterminal t = false)) ∧
      ∀ strategy looks, g.leftmost ["A"] strategy looks ≠ .unfinished →
        ((g.leftmost ["A"] strategy looks).isDerived = c.accepted ↔
          ¬ (["A"] = [g.start] ∧ g.isNonterminal g.start = false)) :=
  Grammar.acceptance_agrees_iff (by decide) (by decide)

/-- A parse accepts a token that has rules; a chart does not, nor does a search of either
strategy find a derivation. -/
theorem Grammar.acceptance_disagrees :
    let g := Grammar.ofRules "S" [⟨"S", ["A"]⟩, ⟨"A", ["a"]⟩]
    g.Unmarked ∧ (g.parse ["A"]).toOption.map Parse.accepts = some true ∧
      (g.chart .empty ["A"]).toOption.map Chart.accepted = some false ∧
      g.leftmost ["A"] .depthFirst 9 = .underivable := by
  decide +kernel

end Parsing
