/-
# The valid states

A state `A -> α . β [j, i]` is valid if the reserved symbol derives some row `γ A δ` where
`γ` stands for the tokens up to `j`, and `α` stands for the tokens from `j` to `i`. A
nonterminal stands for what its rules derive, a category of the lexicon for each of its words,
and any other symbol for itself.

Recognition finds all valid states and no others, each at the position where it stops and once,
be the grammar left-recursive, nullable or cyclic; and it accepts exactly the texts for
which the right-hand side of some rule for the start symbol stands. Every position has its set,
also that of no tokens.

Key definitions: `State.Valid`.
Key theorems: `Grammar.chart_exact`.
-/
import Parsing.Proofs.Chart.Exact

namespace Parsing

variable {g : Grammar} {lex : Lexicon} {tokens : List String}

/-- Whether the row stands for the text, by the rules and the lexicon. -/
abbrev Grammar.StandsFor (g : Grammar) (lex : Lexicon) : List Symbol → List String → Prop :=
  Yields g.rules (g.Reads lex)

/-- Whether the state has a rule of the grammar or the start rule, its left-hand side has a context
that begins with the text before the state, and what stands before the dot stands for the
text of the state. -/
structure State.Valid (g : Grammar) (lex : Lexicon) (tokens : List String) (s : State) :
    Prop where
  start_le : s.start ≤ s.stop
  rule : s.item.rule ∈ g.augmented
  context : ∃ γ δ, Derives g.augmented [Grammar.startMark] (γ ++ s.item.lhs :: δ) ∧
    g.StandsFor lex γ (stretch tokens 0 s.start)
  recognised : g.StandsFor lex (s.item.rule.rhs.take s.item.dot) (stretch tokens s.start s.stop)

theorem State.valid_iff_fits (hg : g.Unmarked) (hlex : lex.Apart g) {s : State}
    (hs : s.stop ≤ tokens.length) :
    s.Valid g lex tokens ↔ Fits g (g.lexical lex) tokens s.item s.start s.stop := by
  rw [fits_iff_context hg (g.lexical_proper hlex tokens) hs]
  constructor
  · rintro ⟨hle, hr, ⟨γ, δ, hd, hγ⟩, hy⟩
    exact ⟨hle, hr, γ, δ, hd, hγ, hy⟩
  · rintro ⟨hle, hr, γ, δ, hd, hγ, hy⟩
    exact ⟨hle, hr, ⟨γ, δ, hd, hγ⟩, hy⟩

/-- Some item completes the start symbol over all tokens exactly when the right-hand side of some
rule for it stands for them. -/
theorem Grammar.exists_done_iff_standsFor (hg : g.Unmarked) (hlex : lex.Apart g) :
    (∃ done, Fits g (g.lexical lex) tokens done 0 tokens.length ∧ done.isComplete = true ∧
        done.lhs = g.start) ↔
      ∃ r ∈ g.rules, r.lhs = g.start ∧ g.StandsFor lex r.rhs tokens := by
  constructor
  · rintro ⟨done, hd, hc, hl⟩
    have hy := hd.yields_rhs hg hc
    rw [stretch_all] at hy
    exact ⟨done.rule, hd.rule_mem_rules fun e => hg.1 (hl.symm.trans e), hl, hy⟩
  · rintro ⟨r, hr, hl, hy⟩
    have hstart : g.isNonterminal g.start = true := isNonterminal_iff.mpr ⟨r, hr, hl⟩
    have hentry : Fits g (g.lexical lex) tokens (.atStart r) 0 0 :=
      .predict .start rfl hstart (mem_rulesFor.mpr ⟨hr, hl⟩)
    refine ⟨⟨r, r.rhs.length, Nat.le_refl _⟩, ?_, by simp [Item.isComplete], hl⟩
    refine .of_yields (g.lexical_proper hlex tokens) hentry (Nat.zero_le _) (Nat.le_refl _) ?_
    rwa [stretch_all, List.take_length]

/-- **A chart holds exactly the valid states.** Recognition ends, each position has a set, the set
holds the valid states that stop there, no state is there twice, and the tokens are accepted
exactly when the right-hand side of some rule for the start symbol stands for them. -/
theorem Grammar.chart_exact (hg : g.Unmarked) (hlex : lex.Apart g) (tokens : List String) :
    ∃ c, g.chart lex tokens = .ok c ∧ c.sets.length = tokens.length + 1 ∧
      (∀ (i : Nat) (states : List State), c.sets[i]? = some states → ∀ s,
        s ∈ states ↔ s.stop = i ∧ s.Valid g lex tokens) ∧
      c.sets.flatten.Nodup ∧
      (c.accepted = true ↔
        ∃ r ∈ g.rules, r.lhs = g.start ∧ g.StandsFor lex r.rhs tokens) := by
  obtain ⟨c, hc, hexact⟩ := g.chart_spec hg hlex tokens
  refine ⟨c, hc, hexact.positions, fun i states hi s => ?_, hexact.nodup_flatten,
    hexact.accepted.trans (exists_done_iff_standsFor hg hlex)⟩
  rw [hexact.mem_iff hi]
  refine and_congr_right fun hstop => ?_
  have hlt := (List.getElem?_eq_some_iff.mp hi).1
  rw [State.valid_iff_fits hg hlex (by have := hexact.positions; omega), hstop]

/-- The theorem at a grammar with left recursion, a nullable symbol and a category. -/
theorem Grammar.chart_exact_articles :
    let g := Grammar.ofRules "S"
      [⟨"S", ["NP", "runs"]⟩, ⟨"NP", ["NP", "NP"]⟩, ⟨"NP", ["D", "N"]⟩, ⟨"D", []⟩, ⟨"D", ["the"]⟩]
    let lex := (Lexicon.empty.insert "N" "dog").insert "N" "runs"
    let tokens := ["the", "dog", "runs"]
    ∃ c, g.chart lex tokens = .ok c ∧ c.sets.length = 4 ∧
      (∀ (i : Nat) (states : List State), c.sets[i]? = some states → ∀ s,
        s ∈ states ↔ s.stop = i ∧ s.Valid g lex tokens) ∧
      c.sets.flatten.Nodup ∧
      (c.accepted = true ↔
        ∃ r ∈ g.rules, r.lhs = g.start ∧ g.StandsFor lex r.rhs tokens) :=
  Grammar.chart_exact (by decide) (by decide) _

end Parsing
