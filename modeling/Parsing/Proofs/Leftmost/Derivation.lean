/-
# The derivation that a search carries

In a leftmost derivation each step puts a rule in the place of the leftmost symbol that has rules.
A configuration stands for the row of the tokens matched so far and its predictions. Of these
tokens none has rules, so the first prediction, if it has rules, is the leftmost symbol of the row
that has: a step by a rule is a step of a leftmost derivation, and matching a token leaves the row
as it is. So the rules on a walk from the start symbol are a leftmost derivation of the row that
the walk has come to (`Config.derivesLeft_of_walk`), and at a goal this row is the tokens.

The states of a search are told apart by position and predictions, not by the rules that led to
them. Each path of the frontier is a walk all the same, so whichever of two ways to one
configuration is kept, its rules are a derivation.

Key definitions: `Grammar.DerivesLeft`, `Config.Predicts`.
Key theorems: `Grammar.DerivesLeft.concat`, `Config.derivesLeft_of_walk`,
`Grammar.leftmost_add`, `Grammar.leftmost_answers`.
-/
import Parsing.Proofs.Leftmost

namespace Parsing

variable {g : Grammar} {tokens : List Symbol} {c : Config}

/-- Whether the rules, each put in the place of the leftmost symbol that has rules, make the row
`w` of the row `u`. -/
inductive Grammar.DerivesLeft (g : Grammar) : List Rule → List Symbol → List Symbol → Prop
  | refl (u : List Symbol) : g.DerivesLeft [] u u
  | head {r : Rule} {rs : List Rule} {before after w : List Symbol} (hr : r ∈ g.rules)
      (hterm : ∀ s ∈ before, g.isNonterminal s = false)
      (h : g.DerivesLeft rs (before ++ (r.rhs ++ after)) w) :
      g.DerivesLeft (r :: rs) (before ++ r.lhs :: after) w

theorem Grammar.DerivesLeft.concat {rs : List Rule} {u v before after : List Symbol} {r : Rule}
    (h : g.DerivesLeft rs u v) (hr : r ∈ g.rules)
    (hterm : ∀ s ∈ before, g.isNonterminal s = false) (hv : v = before ++ r.lhs :: after) :
    g.DerivesLeft (rs ++ [r]) u (before ++ (r.rhs ++ after)) := by
  induction h with
  | refl u =>
    subst hv
    exact .head hr hterm (.refl _)
  | head hr' hterm' _ ih => exact .head hr' hterm' (ih hv)

namespace Config

/-- Whether a rule in the place of its first prediction makes `d` of `c`. The step is taken only
if `d` can finish. -/
inductive Predicts (g : Grammar) : Config → Config → Prop
  | rule {r : Rule} (hr : r ∈ g.rules) (pos : Nat) (rest : List Symbol) :
      Predicts g ⟨pos, r.lhs :: rest⟩ ⟨pos, r.rhs ++ rest⟩

/-- **The rules on a walk are a leftmost derivation** of what is matched and predicted. -/
theorem derivesLeft_of_walk {labels : List (Option Rule)}
    (hw : (graph g tokens).Walk ⟨0, [g.start]⟩ labels c) :
    g.DerivesLeft (labels.reverse.filterMap id) [g.start]
      (tokens.take c.position ++ c.predictions) := by
  induction hw with
  | start => exact .refl _
  | @step labels c d e hw _ he ih =>
    rw [List.reverse_cons, List.filterMap_append]
    rcases mem_steps_iff.mp he with
      ⟨r, rest, hpreds, hr, rfl, rfl, -⟩ | ⟨t, rest, hpreds, -, ht, rfl, rfl⟩
    · rw [hpreds] at ih
      exact ih.concat hr (Fitting.of_walk hw).terminal rfl
    · have hrow : tokens.take (c.position + 1) ++ rest = tokens.take c.position ++ t :: rest := by
        rw [take_succ ht, List.append_assoc]
        rfl
      rw [hpreds] at ih
      show g.DerivesLeft (labels.reverse.filterMap id ++ []) [g.start]
        (tokens.take (c.position + 1) ++ rest)
      rwa [List.append_nil, hrow]

/-- A search looks at no configuration behind the last token, and asks of none whether it can
finish. -/
theorem position_le_of_reached {strategy : Strategy} {S : Search Config (Option Rule)}
    (h : Search.Reached (graph g tokens) strategy ⟨0, [g.start]⟩ S)
    {p : Path Config (Option Rule)} (hp : p ∈ S.frontier) :
    p.state.position ≤ tokens.length ∧
      ∀ d, p.state.Predicts g d → d.position ≤ tokens.length := by
  have hpos := (Fitting.of_walk (h.gathered.gathering.walks p hp)).position_le
  refine ⟨hpos, fun d hd => ?_⟩
  generalize p.state = c at hpos hd
  cases hd with
  | rule => exact hpos

end Config

/-- The rules that are found are a leftmost derivation of the tokens, and no token has rules. -/
theorem Grammar.derivesLeft_of_leftmost {strategy : Strategy} {looks : Nat} {rules : List Rule}
    (h : g.leftmost tokens strategy looks = .derived rules) :
    (∀ t ∈ tokens, g.isNonterminal t = false) ∧ g.DerivesLeft rules [g.start] tokens := by
  obtain ⟨labels, hw, rfl⟩ := exists_walk_of_derived h
  have hterm := (Config.Fitting.of_walk hw).terminal
  have hleft := Config.derivesLeft_of_walk hw
  simp only [List.take_length, List.append_nil] at hterm hleft
  exact ⟨hterm, hleft⟩

/-- The answer of a search that has come to an end does not change with more looks. -/
theorem Grammar.leftmost_add {strategy : Strategy} {looks : Nat} (more : Nat)
    (h : g.leftmost tokens strategy looks ≠ .unfinished) :
    g.leftmost tokens strategy (looks + more) = g.leftmost tokens strategy looks := by
  unfold leftmost at h ⊢
  rw [Search.first_add]
  intro hend
  rw [hend] at h
  exact h rfl

/-- **What a search that ends has found out is true**, with either strategy and however many looks
it was given. The rules that it gives are a leftmost derivation of the tokens. If it gives none,
then the start symbol does not derive the tokens, or one of them has rules. On its way it is
never behind the last token, neither with a configuration of the frontier nor with one that a rule
makes of it, so the number of tokens that remain is not cut off at zero. Once a search has an
answer, it has the same answer with more looks. -/
theorem Grammar.leftmost_answers (g : Grammar) (tokens : List Symbol) (strategy : Strategy)
    (looks : Nat) :
    (∀ rules, g.leftmost tokens strategy looks = .derived rules →
      (∀ t ∈ tokens, g.isNonterminal t = false) ∧ g.DerivesLeft rules [g.start] tokens) ∧
    (g.leftmost tokens strategy looks = .underivable →
      ¬ ((∀ t ∈ tokens, g.isNonterminal t = false) ∧ Derives g.rules [g.start] tokens)) ∧
    (∀ S, Search.Reached (Config.graph g tokens) strategy ⟨0, [g.start]⟩ S → ∀ p ∈ S.frontier,
      p.state.position ≤ tokens.length ∧
        ∀ d, p.state.Predicts g d → d.position ≤ tokens.length) ∧
    (g.leftmost tokens strategy looks ≠ .unfinished → ∀ more,
      g.leftmost tokens strategy (looks + more) = g.leftmost tokens strategy looks) := by
  refine ⟨fun rules h => derivesLeft_of_leftmost h, fun h hd => ?_, fun S hS p hp => ?_,
    fun h more => leftmost_add more h⟩
  · obtain ⟨labels, hw⟩ := Config.exists_walk hd.1 hd.2
    exact not_walk_of_underivable h labels hw
  · exact Config.position_le_of_reached hS hp

/-- The theorem at a left-recursive grammar, for a text that is derived and one that is not. -/
theorem Grammar.leftmost_answers_recursive :
    let g := Grammar.ofRules "S" [⟨"S", ["S", "S"]⟩, ⟨"S", ["b"]⟩]
    let rules : List Rule := [⟨"S", ["S", "S"]⟩, ⟨"S", ["b"]⟩, ⟨"S", ["b"]⟩]
    g.leftmost ["b", "b"] .breadthFirst 9 = .derived rules ∧
      g.DerivesLeft rules [g.start] ["b", "b"] ∧
      g.leftmost ["b", "b"] .breadthFirst (9 + 91) = .derived rules ∧
      g.leftmost ["b", "a"] .depthFirst 9 = .underivable ∧
      ¬ ((∀ t ∈ ["b", "a"], g.isNonterminal t = false) ∧
        Derives g.rules [g.start] ["b", "a"]) ∧
      ∀ p ∈ (Search.expand (Config.graph g ["b"]) .depthFirst ⟨⟨0, ["S"]⟩, []⟩ ⟨[], []⟩).frontier,
        p.state.position ≤ 1 := by
  intro g rules
  have hfound : g.leftmost ["b", "b"] .breadthFirst 9 = .derived rules := by decide +kernel
  have hnone : g.leftmost ["b", "a"] .depthFirst 9 = .underivable := by decide +kernel
  have hreached : Search.Reached (Config.graph g ["b"]) .depthFirst ⟨0, [g.start]⟩
      (Search.expand (Config.graph g ["b"]) .depthFirst ⟨⟨0, ["S"]⟩, []⟩ ⟨[], []⟩) :=
    .look .start rfl
  have hends : g.leftmost ["b", "b"] .breadthFirst 9 ≠ .unfinished := by simp [hfound]
  refine ⟨hfound, ?_, ?_, hnone, ?_, fun p hp => ?_⟩
  · exact ((g.leftmost_answers _ _ _).1 rules hfound).2
  · rw [(g.leftmost_answers _ _ _).2.2.2 hends, hfound]
  · exact (g.leftmost_answers _ _ _).2.1 hnone
  · exact ((g.leftmost_answers ["b"] .depthFirst 0).2.2.1 _ hreached p hp).1

end Parsing
