/-
# Leftmost derivations found by search

A walk from the start configuration keeps that the start symbol derives the tokens matched so far
followed by the predictions, and that no token matched has rules. So the derivation found at a
goal is one of the tokens.

Conversely, every parse tree of the tokens is a walk: a tree is worked off from the left, whatever
is predicted behind it and whatever tokens are left for that (`Tree.walks`). No step of the walk is
left out, for predictions that derive the rest of the tokens have no more symbols that derive a
token than tokens remain (`Derives.length_filter_le`). So if a search ends without a goal, the
tokens are not derived, or one of them has rules.

Key definitions: `LeftmostResult.isDerived`, `Config.Fitting`.
Key theorems: `Config.mem_steps_iff`, `Config.Fitting.of_walk`, `Tree.walks`,
`Grammar.exists_walk_of_derived`, `Grammar.leftmost_iff`.
-/
import Parsing.Leftmost
import Parsing.Proofs.Nullable
import Parsing.Proofs.Search
import Parsing.Proofs.Tree

namespace Parsing

variable {g : Grammar} {tokens : List Symbol} {c d : Config}

/-- Whether a derivation was found. -/
def LeftmostResult.isDerived : LeftmostResult → Bool
  | .derived _ => true
  | .underivable | .unfinished => false

theorem Derives.length_filter_le {u w : List Symbol} (h : Derives g.rules u w) :
    (u.filter fun s => s ∉ g.nullable).length ≤ w.length := by
  induction u generalizing w with
  | nil => exact Nat.zero_le _
  | cons s u ih =>
    obtain ⟨w₁, w₂, rfl, hs, hu⟩ := Derives.split (u := [s]) h
    have hrest := ih hu
    rw [List.length_append]
    by_cases hnull : s ∈ g.nullable
    · rw [List.filter_cons_of_neg (by simpa using hnull)]
      omega
    · have hpos : w₁ ≠ [] := fun e => hnull (Grammar.mem_nullable_iff.mpr (e ▸ hs))
      have := List.length_pos_iff.mpr hpos
      rw [List.filter_cons_of_pos (by simpa using hnull), List.length_cons]
      omega

namespace Config

/-! ### One step -/

/-- **A step puts a rule in the place of the first prediction or matches it**, a rule only while
the predictions can still finish. -/
theorem mem_steps_iff {e : Option Rule} :
    (e, d) ∈ (graph g tokens).steps c ↔
      (∃ r rest, c.predictions = r.lhs :: rest ∧ r ∈ g.rules ∧ e = some r ∧
        d = ⟨c.position, r.rhs ++ rest⟩ ∧ d.canFinish g.nullable tokens = true) ∨
      ∃ t rest, c.predictions = t :: rest ∧ g.isNonterminal t = false ∧
        tokens[c.position]? = some t ∧ e = none ∧ d = ⟨c.position + 1, rest⟩ := by
  show (e, d) ∈ steps g g.nullable tokens c ↔ _
  obtain ⟨pos, preds⟩ := c
  cases preds with
  | nil => simp [steps]
  | cons s rest =>
    cases hs : g.isNonterminal s with
    | true =>
      simp only [steps, hs, if_true, List.mem_filter, List.mem_map, Prod.mk.injEq,
        Grammar.mem_rulesFor, List.cons.injEq]
      constructor
      · rintro ⟨⟨r, ⟨hr, rfl⟩, rfl, rfl⟩, hfin⟩
        exact .inl ⟨r, rest, ⟨rfl, rfl⟩, hr, rfl, rfl, hfin⟩
      · rintro (⟨r, _, ⟨rfl, rfl⟩, hr, rfl, rfl, hfin⟩ | ⟨t, _, ⟨rfl, rfl⟩, hterm, -⟩)
        · exact ⟨⟨r, ⟨hr, rfl⟩, rfl, rfl⟩, hfin⟩
        · rw [hs] at hterm
          cases hterm
    | false =>
      have hrules := Grammar.isNonterminal_eq_false_iff.mp hs
      constructor
      · intro hmem
        by_cases ht : tokens[pos]? = some s
        · simp only [steps, hs, ht, Bool.false_eq_true, if_false, if_true,
            List.mem_singleton, Prod.mk.injEq] at hmem
          exact .inr ⟨s, rest, rfl, hs, ht, hmem.1, hmem.2⟩
        · simp [steps, hs, ht] at hmem
      · rintro (⟨r, _, hpreds, hr, -⟩ | ⟨t, _, hpreds, -, ht, rfl, rfl⟩)
        · exact absurd (List.cons.inj hpreds).1.symm (hrules r hr)
        · obtain ⟨rfl, rfl⟩ := List.cons.inj hpreds
          simp [steps, hs, show tokens[pos]? = some s from ht]

theorem isGoal_iff : (graph g tokens).isGoal c = true ↔ c = ⟨tokens.length, []⟩ := by
  obtain ⟨pos, preds⟩ := c
  show (preds.isEmpty && pos == tokens.length) = true ↔ _
  simp [and_comm]

theorem not_isGoal_cons (pos : Nat) (s : Symbol) (rest : List Symbol) :
    (graph g tokens).isGoal ⟨pos, s :: rest⟩ = false := rfl

/-! ### From walks to derivations -/

theorem take_succ {pos : Nat} {t : Symbol} (ht : tokens[pos]? = some t) :
    tokens.take (pos + 1) = tokens.take pos ++ [t] := by
  rw [List.take_add_one, ht]
  rfl

/-- What every configuration on the way to a derivation of the tokens has. -/
structure Fitting (g : Grammar) (tokens : List Symbol) (c : Config) : Prop where
  position_le : c.position ≤ tokens.length
  terminal : ∀ t ∈ tokens.take c.position, g.isNonterminal t = false
  derives : Derives g.rules [g.start] (tokens.take c.position ++ c.predictions)

theorem Fitting.step (h : c.Fitting g tokens) {e : Option Rule}
    (he : (e, d) ∈ (graph g tokens).steps c) : d.Fitting g tokens := by
  rcases mem_steps_iff.mp he with
    ⟨r, rest, hpreds, hr, -, rfl, -⟩ | ⟨t, rest, hpreds, hterm, ht, -, rfl⟩
  · refine ⟨h.position_le, h.terminal, h.derives.tail ?_⟩
    rw [hpreds]
    exact .step hr (tokens.take c.position) rest
  · refine ⟨(List.getElem?_eq_some_iff.mp ht).1, ?_, ?_⟩
    · show ∀ a ∈ tokens.take (c.position + 1), g.isNonterminal a = false
      intro a ha
      rw [take_succ ht] at ha
      rcases List.mem_append.mp ha with ha | ha
      · exact h.terminal a ha
      · rw [List.mem_singleton.mp ha]
        exact hterm
    · have hd := h.derives
      rw [hpreds] at hd
      show Derives g.rules [g.start] (tokens.take (c.position + 1) ++ rest)
      rw [take_succ ht]
      simpa using hd

/-- **Where a walk comes to, the start symbol derives what is matched and predicted.** -/
theorem Fitting.of_walk {labels : List (Option Rule)}
    (hw : (graph g tokens).Walk ⟨0, [g.start]⟩ labels c) : c.Fitting g tokens := by
  induction hw with
  | start => exact ⟨Nat.zero_le _, by simp, by simpa using Derives.refl [g.start]⟩
  | step _ _ he ih => exact ih.step he

end Config

/-! ### From parse trees to walks -/

section

variable {start : Config} {labels : List (Option Rule)} {pos : Nat} {rest more : List Symbol}

theorem Config.canFinish_of_derives {u w : List Symbol} (h : Derives g.rules u w)
    (hdrop : tokens.drop pos = w ++ more)
    (hrest : (rest.filter fun s => s ∉ g.nullable).length ≤ more.length) :
    Config.canFinish g.nullable tokens ⟨pos, u ++ rest⟩ = true := by
  have hlen := congrArg List.length hdrop
  have hu := h.length_filter_le
  simp only [List.length_drop, List.length_append] at hlen
  simp only [canFinish, decide_eq_true_eq, List.filter_append, List.length_append]
  omega

mutual

/-- **A parse tree is worked off from the left**, whatever is predicted behind it. -/
theorem Tree.walks : ∀ (t : Tree), t.Valid g.rules → ∀ {labels : List (Option Rule)} {pos : Nat}
    {rest more : List Symbol},
    (Config.graph g tokens).Walk start labels ⟨pos, t.root :: rest⟩ →
    tokens.drop pos = t.yield ++ more →
    (rest.filter fun s => s ∉ g.nullable).length ≤ more.length →
    ∃ labels', (Config.graph g tokens).Walk start labels' ⟨pos + t.yield.length, rest⟩
  | .leaf a, ha, labels, pos, rest, more, h, hdrop, hrest => by
    have hterm : g.isNonterminal a = false := Grammar.isNonterminal_eq_false_iff.mpr ha
    have hget : tokens[pos]? = some a := by
      have := congrArg (·[0]?) hdrop
      simpa [Tree.yield] using this
    have hmatch : (none, ⟨pos + 1, rest⟩) ∈ (Config.graph g tokens).steps ⟨pos, a :: rest⟩ :=
      Config.mem_steps_iff.mpr (.inr ⟨a, rest, rfl, hterm, hget, rfl, rfl⟩)
    exact ⟨none :: labels, .step h (Config.not_isGoal_cons pos a rest) hmatch⟩
  | .node lhs row, ⟨hr, hrow⟩, labels, pos, rest, more, h, hdrop, hrest => by
    have hfin := Config.canFinish_of_derives (row.derives hrow) hdrop hrest
    have hrule : (some ⟨lhs, row.symbols⟩, ⟨pos, row.symbols ++ rest⟩) ∈
        (Config.graph g tokens).steps ⟨pos, lhs :: rest⟩ :=
      Config.mem_steps_iff.mpr (.inl ⟨⟨lhs, row.symbols⟩, rest, rfl, hr, rfl, rfl, hfin⟩)
    exact row.walks hrow (.step h (Config.not_isGoal_cons pos lhs rest) hrule) hdrop hrest

/-- A row of parse trees is worked off from the left. -/
theorem Row.walks : ∀ (row : Row), row.Valid g.rules → ∀ {labels : List (Option Rule)} {pos : Nat}
    {rest more : List Symbol},
    (Config.graph g tokens).Walk start labels ⟨pos, row.symbols ++ rest⟩ →
    tokens.drop pos = row.yield ++ more →
    (rest.filter fun s => s ∉ g.nullable).length ≤ more.length →
    ∃ labels', (Config.graph g tokens).Walk start labels' ⟨pos + row.yield.length, rest⟩
  | .nil, _, labels, pos, rest, more, h, _, _ => ⟨labels, h⟩
  | .snoc init last, ⟨hinit, hlast⟩, labels, pos, rest, more, h, hdrop, hrest => by
    have hsym : (init.snoc last).symbols ++ rest = init.symbols ++ last.root :: rest := by
      simp [Row.symbols]
    have hyield : (init.snoc last).yield ++ more = init.yield ++ (last.yield ++ more) := by
      simp [Row.yield]
    rw [hsym] at h
    rw [hyield] at hdrop
    have hlater : ((last.root :: rest).filter fun s => s ∉ g.nullable).length ≤
        (last.yield ++ more).length := by
      have hroot := (last.derives hlast).length_filter_le
      rw [← List.singleton_append, List.filter_append]
      simp only [List.length_append]
      omega
    obtain ⟨labels₁, h₁⟩ := init.walks hinit h hdrop hlater
    have hdrop₁ : tokens.drop (pos + init.yield.length) = last.yield ++ more := by
      rw [← List.drop_drop, hdrop, List.drop_left]
    obtain ⟨labels₂, h₂⟩ := last.walks hlast h₁ hdrop₁ hrest
    refine ⟨labels₂, ?_⟩
    rw [Row.yield, List.length_append, ← Nat.add_assoc]
    exact h₂

end

end

/-- What the start symbol derives is matched at the end of some walk, if no token has rules. -/
theorem Config.exists_walk (hT : ∀ t ∈ tokens, g.isNonterminal t = false)
    (hd : Derives g.rules [g.start] tokens) :
    ∃ labels, (graph g tokens).Walk ⟨0, [g.start]⟩ labels ⟨tokens.length, []⟩ := by
  obtain ⟨t, hv, hroot, hyield⟩ := (derives_iff_exists_tree fun a ha =>
    Grammar.isNonterminal_eq_false_iff.mp (hT a ha)).mp hd
  have hstart : (graph g tokens).Walk ⟨0, [g.start]⟩ [] ⟨0, t.root :: []⟩ := by
    rw [hroot]
    exact .start
  have hdrop : tokens.drop 0 = t.yield ++ [] := by simp [hyield]
  obtain ⟨labels, h⟩ := t.walks hv hstart hdrop (Nat.le_refl _)
  rw [hyield, Nat.zero_add] at h
  exact ⟨labels, h⟩

namespace Grammar

variable {strategy : Strategy} {looks : Nat}

/-- The rules that are found are those on a walk that matches all tokens. -/
theorem exists_walk_of_derived {rules : List Rule}
    (h : g.leftmost tokens strategy looks = .derived rules) :
    ∃ labels, (Config.graph g tokens).Walk ⟨0, [g.start]⟩ labels ⟨tokens.length, []⟩ ∧
      labels.reverse.filterMap id = rules := by
  have htells := Search.first_tells (Config.graph g tokens) strategy looks ⟨0, [g.start]⟩
  unfold leftmost at h
  split at h
  · next p expanded hend =>
    cases h
    rw [hend] at htells
    obtain ⟨hw, hgoal⟩ := htells
    rw [Config.isGoal_iff.mp hgoal] at hw
    exact ⟨p.labels, hw, rfl⟩
  · cases h
  · cases h

/-- If no rules are found, no walk matches all tokens. -/
theorem not_walk_of_underivable (h : g.leftmost tokens strategy looks = .underivable)
    (labels : List (Option Rule)) :
    ¬ (Config.graph g tokens).Walk ⟨0, [g.start]⟩ labels ⟨tokens.length, []⟩ := by
  have htells := Search.first_tells (Config.graph g tokens) strategy looks ⟨0, [g.start]⟩
  unfold leftmost at h
  split at h
  · cases h
  · next expanded hend =>
    rw [hend] at htells
    intro hw
    have hgoal := htells labels _ hw
    rw [Config.isGoal_iff.mpr rfl] at hgoal
    cases hgoal
  · cases h

/-- **A search that ends finds a derivation if there is one**, with either strategy: it finds one
exactly when the start symbol derives the tokens and no token has rules. -/
theorem leftmost_iff (g : Grammar) (tokens : List Symbol) (strategy : Strategy)
    {looks : Nat} (h : g.leftmost tokens strategy looks ≠ .unfinished) :
    (g.leftmost tokens strategy looks).isDerived = true ↔
      (∀ t ∈ tokens, g.isNonterminal t = false) ∧ Derives g.rules [g.start] tokens := by
  cases hend : g.leftmost tokens strategy looks with
  | derived rules =>
    obtain ⟨labels, hw, -⟩ := exists_walk_of_derived hend
    have hfit := Config.Fitting.of_walk hw
    exact iff_of_true rfl ⟨by simpa using hfit.terminal, by simpa using hfit.derives⟩
  | underivable =>
    refine iff_of_false nofun fun ⟨hT, hd⟩ => ?_
    obtain ⟨labels, hw⟩ := Config.exists_walk hT hd
    exact not_walk_of_underivable hend labels hw
  | unfinished => exact absurd hend h

end Grammar

end Parsing
