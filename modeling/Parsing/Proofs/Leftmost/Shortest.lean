/-
# Shortest leftmost derivations

The rules on a walk are a leftmost derivation, and every leftmost derivation of the tokens is the
rules on some walk (`Config.exists_walk_of_derivesLeft`): what is left of the tokens is derived
from the predictions, so the rule to be put in next is one for the first prediction, and no step is
left out for want of tokens. A walk has a step for each rule and a step for each token that it
matches (`Config.length_of_walk`). All walks to the end of the text match the same tokens, so a
shortest of them has the fewest rules.

Breadth-first a shortest walk to a goal is found, and it is found although nullable symbols may
pile up on the way without end.

Key theorems: `Config.walks_of_derivesLeft`, `Config.exists_walk_of_derivesLeft`,
`Config.length_of_walk`, `Grammar.leftmost_shortest`.
-/
import Parsing.Proofs.Leftmost.Derivation
import Parsing.Proofs.Search.Distance

namespace Parsing

variable {g : Grammar} {tokens : List Symbol} {c : Config}

/-! ### The first symbol of a leftmost derivation -/

namespace Grammar.DerivesLeft

variable {rs : List Rule} {a : Symbol} {u rest w : List Symbol}

theorem derives (h : g.DerivesLeft rs u w) : Derives g.rules u w := by
  induction h with
  | refl u => exact .refl u
  | @head r _ before after _ hr _ _ ih => exact Derives.trans (.single (.step hr before after)) ih

/-- A leftmost derivation comes to its end or goes on with a rule. -/
theorem cases_rule (h : g.DerivesLeft rs u w) :
    (rs = [] ∧ w = u) ∨ ∃ r rs' before after, rs = r :: rs' ∧ u = before ++ r.lhs :: after ∧
      r ∈ g.rules ∧ (∀ s ∈ before, g.isNonterminal s = false) ∧
      g.DerivesLeft rs' (before ++ (r.rhs ++ after)) w := by
  cases h with
  | refl => exact .inl ⟨rfl, rfl⟩
  | head hr hterm h => exact .inr ⟨_, _, _, _, rfl, rfl, hr, hterm, h⟩

theorem of_nil (h : g.DerivesLeft rs [] w) : rs = [] ∧ w = [] := by
  rcases h.cases_rule with h | ⟨r, rs', before, after, -, hu, -⟩
  · exact h
  · simp at hu

/-- A symbol without rules stays where it is in front. -/
theorem of_terminal_cons (ha : g.isNonterminal a = false) (h : g.DerivesLeft rs (a :: rest) w) :
    ∃ w', w = a :: w' ∧ g.DerivesLeft rs rest w' := by
  generalize hu : a :: rest = u at h
  induction h generalizing rest with
  | refl => exact ⟨rest, hu.symm, .refl rest⟩
  | @head r rs' before after w hr hterm h ih =>
    cases before with
    | nil =>
      obtain ⟨rfl, -⟩ := List.cons.inj hu
      exact absurd rfl (Grammar.isNonterminal_eq_false_iff.mp ha r hr)
    | cons b before =>
      obtain ⟨rfl, rfl⟩ := List.cons.inj hu
      obtain ⟨w', hw, hrest⟩ := ih rfl
      exact ⟨w', hw, .head hr (fun s hs => hterm s (List.mem_cons_of_mem _ hs)) hrest⟩

/-- A symbol that has rules is replaced next if it is in front and the end has no such symbol. -/
theorem of_nonterminal_cons (ha : g.isNonterminal a = true)
    (hw : ∀ t ∈ w, g.isNonterminal t = false) (h : g.DerivesLeft rs (a :: rest) w) :
    ∃ r rs', rs = r :: rs' ∧ r ∈ g.rules ∧ r.lhs = a ∧
      g.DerivesLeft rs' (r.rhs ++ rest) w := by
  rcases h.cases_rule with ⟨-, rfl⟩ | ⟨r, rs', before, after, rfl, hu, hr, hterm, h'⟩
  · rw [hw a List.mem_cons_self] at ha
    cases ha
  · cases before with
    | nil =>
      obtain ⟨rfl, rfl⟩ := List.cons.inj hu
      exact ⟨r, rs', rfl, hr, rfl, h'⟩
    | cons b before =>
      obtain ⟨rfl, -⟩ := List.cons.inj hu
      rw [hterm a List.mem_cons_self] at ha
      cases ha

end Grammar.DerivesLeft

namespace Config

/-! ### Leftmost derivations are walks -/

/-- **What is predicted is worked off by any leftmost derivation of the tokens that are left.** -/
theorem walks_of_derivesLeft (hT : ∀ t ∈ tokens, g.isNonterminal t = false) {start : Config}
    {rs : List Rule} {pos : Nat} {preds : List Symbol} {labels : List (Option Rule)}
    (hpos : pos ≤ tokens.length)
    (hw : (graph g tokens).Walk start labels ⟨pos, preds⟩)
    (h : g.DerivesLeft rs preds (tokens.drop pos)) :
    ∃ more, (graph g tokens).Walk start (more ++ labels) ⟨tokens.length, []⟩ ∧
      more.reverse.filterMap id = rs := by
  match preds with
  | [] =>
    obtain ⟨rfl, hdrop⟩ := h.of_nil
    have hend : pos = tokens.length := Nat.le_antisymm hpos (List.drop_eq_nil_iff.mp hdrop)
    exact ⟨[], hend ▸ hw, rfl⟩
  | a :: rest =>
    have hplain : (graph g tokens).isGoal ⟨pos, a :: rest⟩ = false := not_isGoal_cons pos a rest
    cases ha : g.isNonterminal a with
    | true =>
      have hleft : ∀ t ∈ tokens.drop pos, g.isNonterminal t = false :=
        fun t ht => hT t (List.mem_of_mem_drop ht)
      obtain ⟨r, rs', rfl, hr, rfl, h'⟩ := h.of_nonterminal_cons ha hleft
      have hfin : canFinish g.nullable tokens ⟨pos, r.rhs ++ rest⟩ = true := by
        have hall : canFinish g.nullable tokens ⟨pos, (r.rhs ++ rest) ++ []⟩ = true :=
          canFinish_of_derives h'.derives (List.append_nil _).symm (Nat.le_refl _)
        rwa [List.append_nil] at hall
      have hstep : (some r, ⟨pos, r.rhs ++ rest⟩) ∈
          (graph g tokens).steps ⟨pos, r.lhs :: rest⟩ :=
        mem_steps_iff.mpr (.inl ⟨r, rest, rfl, hr, rfl, rfl, hfin⟩)
      obtain ⟨more, hmore, hrules⟩ := walks_of_derivesLeft hT hpos (hw.step hplain hstep) h'
      refine ⟨more ++ [some r], ?_, ?_⟩
      · rwa [List.append_assoc]
      · simp [← hrules]
    | false =>
      obtain ⟨w', hdrop, h'⟩ := h.of_terminal_cons ha
      have hlt : pos < tokens.length := by
        by_contra hge
        rw [List.drop_eq_nil_iff.mpr (Nat.le_of_not_lt hge)] at hdrop
        cases hdrop
      have hcons := List.drop_eq_getElem_cons hlt
      rw [hdrop] at hcons
      obtain ⟨hhead, rfl⟩ := List.cons.inj hcons
      have hstep : (none, ⟨pos + 1, rest⟩) ∈ (graph g tokens).steps ⟨pos, a :: rest⟩ :=
        mem_steps_iff.mpr (.inr ⟨a, rest, rfl, ha, by rw [List.getElem?_eq_getElem hlt, hhead],
          rfl, rfl⟩)
      obtain ⟨more, hmore, hrules⟩ := walks_of_derivesLeft hT hlt (hw.step hplain hstep) h'
      refine ⟨more ++ [none], ?_, ?_⟩
      · rwa [List.append_assoc]
      · simp [← hrules]
termination_by rs.length + (tokens.length - pos)

/-- **A leftmost derivation of the tokens is the rules on some walk.** -/
theorem exists_walk_of_derivesLeft (hT : ∀ t ∈ tokens, g.isNonterminal t = false) {rs : List Rule}
    (h : g.DerivesLeft rs [g.start] tokens) :
    ∃ labels, (graph g tokens).Walk ⟨0, [g.start]⟩ labels ⟨tokens.length, []⟩ ∧
      labels.reverse.filterMap id = rs := by
  obtain ⟨labels, hw, hrules⟩ := walks_of_derivesLeft hT (Nat.zero_le _) .start h
  exact ⟨labels, List.append_nil labels ▸ hw, hrules⟩

/-- **A walk has a step for each rule and for each token matched.** -/
theorem length_of_walk {labels : List (Option Rule)}
    (hw : (graph g tokens).Walk ⟨0, [g.start]⟩ labels c) :
    labels.length = (labels.reverse.filterMap id).length + c.position := by
  induction hw with
  | start => rfl
  | @step labels c d e _ _ he ih =>
    rw [List.reverse_cons, List.filterMap_append, List.length_append, List.length_cons, ih]
    rcases mem_steps_iff.mp he with ⟨r, rest, -, -, rfl, rfl, -⟩ | ⟨t, rest, -, -, -, rfl, rfl⟩
    · exact Nat.add_right_comm _ _ _
    · rfl

end Config

namespace Grammar

/-- **Breadth-first a shortest leftmost derivation is found.** If the start symbol derives tokens
without rules, a search ends, however many configurations there are, and more looks do not change
its answer: a leftmost derivation of the tokens with no more rules than any other. -/
theorem leftmost_shortest (g : Grammar) (tokens : List Symbol)
    (hT : ∀ t ∈ tokens, g.isNonterminal t = false) (hd : Derives g.rules [g.start] tokens) :
    ∃ enough rules, (∀ looks ≥ enough, g.leftmost tokens .breadthFirst looks = .derived rules) ∧
      g.DerivesLeft rules [g.start] tokens ∧
      ∀ rs, g.DerivesLeft rs [g.start] tokens → rules.length ≤ rs.length := by
  obtain ⟨labels, hw⟩ := Config.exists_walk hT hd
  have hgoal : (Config.graph g tokens).isGoal ⟨tokens.length, []⟩ = true :=
    Config.isGoal_iff.mpr rfl
  obtain ⟨enough, p, expanded, hend⟩ := Search.first_finds hw hgoal
  have hderived : ∀ looks ≥ enough, g.leftmost tokens .breadthFirst looks =
      .derived (p.labels.reverse.filterMap id) := fun looks hlooks => by
    unfold leftmost
    rw [hend looks hlooks]
  have hfound := hend enough (Nat.le_refl _)
  have htells := Search.first_tells (Config.graph g tokens) .breadthFirst enough ⟨0, [g.start]⟩
  rw [hfound] at htells
  obtain ⟨hwalk, hp⟩ := htells
  rw [Config.isGoal_iff.mp hp] at hwalk
  refine ⟨enough, _, hderived, (derivesLeft_of_leftmost (hderived enough (Nat.le_refl _))).2,
    fun rs hrs => ?_⟩
  obtain ⟨others, hother, rfl⟩ := Config.exists_walk_of_derivesLeft hT hrs
  have hle := Search.first_found_le hfound hother hgoal
  have hlen := Config.length_of_walk hwalk
  have hlen' := Config.length_of_walk hother
  omega

/-- The theorem at a grammar in which a nullable symbol piles up without end. -/
theorem leftmost_shortest_piled :
    let g := Grammar.ofRules "S" [⟨"S", ["A", "b"]⟩, ⟨"A", ["A", "A"]⟩, ⟨"A", []⟩]
    let rules : List Rule := [⟨"S", ["A", "b"]⟩, ⟨"A", []⟩]
    (∀ t ∈ ["b"], g.isNonterminal t = false) ∧ Derives g.rules [g.start] ["b"] ∧
      (∃ enough, ∀ looks ≥ enough, g.leftmost ["b"] .breadthFirst looks = .derived rules) ∧
      ∀ rs, g.DerivesLeft rs [g.start] ["b"] → 2 ≤ rs.length := by
  intro g rules
  have hfound : g.leftmost ["b"] .breadthFirst 9 = .derived rules := by decide +kernel
  obtain ⟨hT, hleft⟩ := derivesLeft_of_leftmost hfound
  obtain ⟨enough, rules', hends, -, hleast⟩ := g.leftmost_shortest ["b"] hT hleft.derives
  have hsame : rules' = rules := by
    have hend : g.leftmost ["b"] .breadthFirst 9 ≠ .unfinished := by simp [hfound]
    have hmore := leftmost_add enough hend
    rw [hends _ (Nat.le_add_left enough 9), hfound] at hmore
    exact LeftmostResult.derived.inj hmore
  subst hsame
  exact ⟨hT, hleft.derives, ⟨enough, hends⟩, hleast⟩

end Grammar

end Parsing
