/-
# Leftmost derivations without nullable symbols

If no symbol derives nothing, each prediction takes a token at least. A rule is put in only where
the predictions can still finish, so there are never more predictions than tokens but for the start
symbol, left-recursive rules and circles of rules or not. The predictions come from the right-hand
sides and no position is behind the last token, so a search comes to finitely many configurations
(`Config.finite_walks`) and ends.

Key definitions: `Config.Confined`.
Key theorems: `Config.Confined.of_walk`, `Config.finite_walks`, `Grammar.leftmost_ends`.
-/
import Mathlib.Data.Fintype.List
import Mathlib.Data.Set.Finite.Lattice
import Mathlib.Data.Set.Finite.List
import Parsing.Proofs.Leftmost.Derivation
import Parsing.Proofs.Search.Finite

namespace Parsing

variable {g : Grammar} {tokens : List Symbol} {c d : Config}

/-- The lists of bounded length whose members are those of a given list are finitely many. -/
theorem finite_lists {α : Type} [DecidableEq α] (letters : List α) (n : Nat) :
    {l : List α | l.length ≤ n ∧ ∀ a ∈ l, a ∈ letters}.Finite := by
  refine ((List.finite_length_le {a // a ∈ letters} n).image (List.map Subtype.val)).subset ?_
  rintro l ⟨hlen, hmem⟩
  refine ⟨l.attachWith (· ∈ letters) hmem, ?_, List.attachWith_map_subtype_val hmem⟩
  show (l.attachWith (· ∈ letters) hmem).length ≤ n
  rwa [List.length_attachWith]

namespace Config

/-- Whether a configuration stays inside the text, with no more than one prediction more than
tokens, all from the grammar. -/
structure Confined (g : Grammar) (tokens : List Symbol) (c : Config) : Prop where
  position_le : c.position ≤ tokens.length
  length_le : c.predictions.length ≤ tokens.length + 1
  letters : ∀ a ∈ c.predictions, a ∈ g.start :: g.rules.flatMap (·.rhs)

theorem Confined.step (h : c.Confined g tokens) (hnull : g.nullable = []) {e : Option Rule}
    (he : (e, d) ∈ (graph g tokens).steps c) : d.Confined g tokens := by
  rcases mem_steps_iff.mp he with
    ⟨r, rest, hpreds, hr, -, rfl, hfin⟩ | ⟨t, rest, hpreds, -, ht, -, rfl⟩
  · refine ⟨h.position_le, ?_, fun a ha => ?_⟩
    · -- nothing is nullable, so all predictions count
      simp only [canFinish, hnull, List.not_mem_nil, not_false_eq_true, decide_true,
        List.filter_true, decide_eq_true_eq] at hfin
      show (r.rhs ++ rest).length ≤ tokens.length + 1
      omega
    · rcases List.mem_append.mp ha with ha | ha
      · exact List.mem_cons_of_mem _ (List.mem_flatMap.mpr ⟨r, hr, ha⟩)
      · exact h.letters a (hpreds ▸ List.mem_cons_of_mem _ ha)
  · refine ⟨(List.getElem?_eq_some_iff.mp ht).1, ?_, fun a ha => ?_⟩
    · have hlen := h.length_le
      rw [hpreds, List.length_cons] at hlen
      exact Nat.le_of_succ_le hlen
    · exact h.letters a (hpreds ▸ List.mem_cons_of_mem _ ha)

/-- **Without nullable symbols a walk stays confined.** -/
theorem Confined.of_walk (hnull : g.nullable = []) {labels : List (Option Rule)}
    (hw : (graph g tokens).Walk ⟨0, [g.start]⟩ labels c) : c.Confined g tokens := by
  induction hw with
  | start => exact ⟨Nat.zero_le _, Nat.le_add_left _ _, by simp⟩
  | step _ _ he ih => exact ih.step hnull he

theorem finite_confined (g : Grammar) (tokens : List Symbol) :
    {c | Confined g tokens c}.Finite := by
  refine ((Set.finite_le_nat tokens.length).prod
    (finite_lists (g.start :: g.rules.flatMap (·.rhs)) (tokens.length + 1))).image
    (fun e => (⟨e.1, e.2⟩ : Config)) |>.subset ?_
  intro c hc
  exact ⟨(c.position, c.predictions), ⟨hc.position_le, hc.length_le, hc.letters⟩, rfl⟩

/-- **Without nullable symbols walks come to finitely many configurations.** -/
theorem finite_walks (hnull : g.nullable = []) (tokens : List Symbol) :
    {c | ∃ labels, (graph g tokens).Walk ⟨0, [g.start]⟩ labels c}.Finite :=
  (finite_confined g tokens).subset fun _ ⟨_, hw⟩ => Confined.of_walk hnull hw

end Config

namespace Grammar

/-- A search for a leftmost derivation ends when the search of its graph does. -/
theorem leftmost_finishes {strategy : Strategy} {looks : Nat}
    (h : Search.first (Config.graph g tokens) strategy looks (Search.start ⟨0, [g.start]⟩) ≠
      .unfinished) : g.leftmost tokens strategy looks ≠ .unfinished := by
  unfold leftmost
  split
  · exact nofun
  · exact nofun
  · next hend => exact absurd hend h

/-- **Without nullable symbols a search for a leftmost derivation ends**, whatever the tokens, with
either strategy, and more looks do not change its answer. The strategies agree on whether there is
a derivation. -/
theorem leftmost_ends (g : Grammar) (hnull : ∀ a, ¬ Derives g.rules [a] [])
    (tokens : List Symbol) :
    ∃ (enough : Nat) (answer : Strategy → LeftmostResult),
      (∀ strategy, answer strategy ≠ .unfinished ∧
        ∀ looks ≥ enough, g.leftmost tokens strategy looks = answer strategy) ∧
      (answer .breadthFirst).isDerived = (answer .depthFirst).isDerived := by
  have hnone : g.nullable = [] :=
    List.eq_nil_iff_forall_not_mem.mpr fun a ha => hnull a (mem_nullable_iff.mp ha)
  have hfin := Config.finite_walks hnone tokens
  have hR : ∀ labels c, (Config.graph g tokens).Walk ⟨0, [g.start]⟩ labels c →
      c ∈ hfin.toFinset := fun labels _ hw => hfin.mem_toFinset.mpr ⟨labels, hw⟩
  choose result hends hfirst using Search.first_settles hR
  let enough := Search.due (Config.graph g tokens) hfin.toFinset (Search.start ⟨0, [g.start]⟩) + 1
  have hfinishes : ∀ strategy, g.leftmost tokens strategy enough ≠ .unfinished := fun strategy =>
    leftmost_finishes (by rw [hfirst strategy enough (Nat.lt_succ_self _)]; exact hends strategy)
  refine ⟨enough, fun strategy => g.leftmost tokens strategy enough,
    fun strategy => ⟨hfinishes strategy, fun looks hlooks => ?_⟩, ?_⟩
  · obtain ⟨more, rfl⟩ := Nat.exists_eq_add_of_le hlooks
    exact leftmost_add more (hfinishes strategy)
  · rw [Bool.eq_iff_iff, leftmost_iff g tokens _ (hfinishes _),
      leftmost_iff g tokens _ (hfinishes _)]

/-- The theorem at a grammar with a left-recursive rule and a circle of rules. -/
theorem leftmost_ends_circle :
    let g := Grammar.ofRules "S"
      [⟨"S", ["S", "S"]⟩, ⟨"S", ["A"]⟩, ⟨"A", ["S"]⟩, ⟨"S", ["b"]⟩]
    (∀ a, ¬ Derives g.rules [a] []) ∧
      ∃ (enough : Nat) (answer : Strategy → LeftmostResult),
        (∀ strategy, answer strategy ≠ .unfinished ∧
          ∀ looks ≥ enough, g.leftmost ["b", "b"] strategy looks = answer strategy) ∧
        (answer .breadthFirst).isDerived = (answer .depthFirst).isDerived := by
  intro g
  have hnone : g.nullable = [] := by decide +kernel
  have hnull : ∀ a, ¬ Derives g.rules [a] [] := fun a ha => by
    have hmem := mem_nullable_iff.mpr ha
    rw [hnone] at hmem
    cases hmem
  exact ⟨hnull, g.leftmost_ends hnull ["b", "b"]⟩

end Grammar

end Parsing
