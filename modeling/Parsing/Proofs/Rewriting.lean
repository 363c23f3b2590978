/-
# Rewriting by rules

A step of rewriting puts the right-hand side of a rule in the place of its
left-hand side, anywhere in a row of symbols. A row derives another one when
steps lead from the one to the other. No step changes a symbol without rules, so
such a symbol derives itself and nothing else.

What a row derives falls into what its parts derive (`Derives.split`). The
reserved symbol of the start rule cannot come up in a grammar that does not
mention it, so there the start rule adds nothing (`Derives.of_augmented`).

Key definitions: `Rewrites`, `Derives`, `Grammar.Unmarked`, `Grammar.augmented`.
Key theorems: `Derives.append`, `Derives.split`, `Derives.length_le`,
`Derives.of_augmented`.
-/
import Mathlib.Logic.Relation
import Parsing.Grammar

namespace Parsing

/-- One step of rewriting by one of the rules `rs`. -/
inductive Rewrites (rs : List Rule) : List Symbol → List Symbol → Prop
  | step {r : Rule} (hr : r ∈ rs) (before after : List Symbol) :
      Rewrites rs (before ++ r.lhs :: after) (before ++ (r.rhs ++ after))

/-- Steps of rewriting lead from the row `u` to the row `w`. -/
def Derives (rs : List Rule) (u w : List Symbol) : Prop := Relation.ReflTransGen (Rewrites rs) u w

section

variable {rs : List Rule} {u v w : List Symbol}

theorem Rewrites.context (h : Rewrites rs u w) (before after : List Symbol) :
    Rewrites rs (before ++ (u ++ after)) (before ++ (w ++ after)) := by
  obtain ⟨hr, l, m⟩ := h
  simpa using Rewrites.step hr (before ++ l) (m ++ after)

namespace Derives

theorem refl (u : List Symbol) : Derives rs u u := Relation.ReflTransGen.refl

theorem trans (h₁ : Derives rs u v) (h₂ : Derives rs v w) : Derives rs u w :=
  Relation.ReflTransGen.trans h₁ h₂

theorem of_rule {r : Rule} (hr : r ∈ rs) : Derives rs [r.lhs] r.rhs := by
  have h : Rewrites rs [r.lhs] r.rhs := by simpa using Rewrites.step hr [] []
  exact Relation.ReflTransGen.single h

theorem context (h : Derives rs u w) (before after : List Symbol) :
    Derives rs (before ++ (u ++ after)) (before ++ (w ++ after)) := by
  induction h with
  | refl => exact refl _
  | tail _ hs ih => exact ih.tail (hs.context before after)

/-- Rows side by side derive what they derive side by side. -/
theorem append {u' v' : List Symbol} (h₁ : Derives rs u u') (h₂ : Derives rs v v') :
    Derives rs (u ++ v) (u' ++ v') := by
  have hl : Derives rs (u ++ v) (u' ++ v) := by simpa using h₁.context [] v
  have hr : Derives rs (u' ++ v) (u' ++ v') := by simpa using h₂.context u' []
  exact hl.trans hr

theorem mono {rs' : List Rule} (hsub : rs ⊆ rs') (h : Derives rs u w) : Derives rs' u w := by
  refine Relation.ReflTransGen.mono ?_ _ _ h
  rintro _ _ ⟨hr, l, m⟩
  exact Rewrites.step (hsub hr) l m

theorem split (h : Derives rs (u ++ v) w) :
    ∃ w₁ w₂, w = w₁ ++ w₂ ∧ Derives rs u w₁ ∧ Derives rs v w₂ := by
  induction h with
  | refl => exact ⟨u, v, rfl, refl u, refl v⟩
  | @tail x y _ hs ih =>
    obtain ⟨w₁, w₂, rfl, h₁, h₂⟩ := ih
    generalize hx : w₁ ++ w₂ = x at hs
    obtain @⟨r, hr, l, m⟩ := hs
    -- the rewritten symbol stands in the left part or in the right part
    rcases List.append_eq_append_iff.mp hx with ⟨l', rfl, e⟩ | ⟨m', rfl, e⟩
    · refine ⟨w₁, l' ++ (r.rhs ++ m), by simp, h₁, h₂.tail ?_⟩
      rw [e]
      exact Rewrites.step hr l' m
    · cases m' with
      | nil =>
        simp only [List.nil_append] at e
        refine ⟨l ++ [], r.rhs ++ m, by simp, h₁, h₂.tail ?_⟩
        rw [← e]
        simpa using Rewrites.step hr [] m
      | cons s m' =>
        simp only [List.cons_append, List.cons.injEq] at e
        obtain ⟨rfl, rfl⟩ := e
        exact ⟨l ++ (r.rhs ++ m'), w₂, by simp, h₁.tail (Rewrites.step hr l m'), h₂⟩

theorem eq_of_terminal {a : Symbol} (ha : ∀ r ∈ rs, r.lhs ≠ a) (h : Derives rs [a] w) :
    w = [a] := by
  induction h with
  | refl => rfl
  | tail _ hs ih =>
    subst ih
    generalize hx : [a] = x at hs
    obtain @⟨r, hr, l, m⟩ := hs
    have : r.lhs ∈ [a] := by rw [hx]; simp
    exact absurd (List.mem_singleton.mp this) (ha r hr)

/-- What a symbol derives is the symbol itself or derived by one of its rules. -/
theorem singleton_iff {s : Symbol} :
    Derives rs [s] w ↔ w = [s] ∨ ∃ r ∈ rs, r.lhs = s ∧ Derives rs r.rhs w := by
  constructor
  · intro h
    rcases h.cases_head with rfl | ⟨v, hs, hv⟩
    · exact .inl rfl
    · generalize hx : [s] = x at hs
      obtain @⟨r, hr, l, m⟩ := hs
      obtain ⟨rfl, hl, rfl⟩ : l = [] ∧ r.lhs = s ∧ m = [] := by
        cases l <;> simp_all
      rw [List.nil_append, List.append_nil] at hv
      exact .inr ⟨r, hr, hl, hv⟩
  · rintro (rfl | ⟨r, hr, rfl, hd⟩)
    · exact .refl _
    · exact (of_rule hr).trans hd

/-- Without rules for the empty row no step makes a row shorter. -/
theorem length_le (hrs : ∀ r ∈ rs, r.rhs ≠ []) (h : Derives rs u w) : u.length ≤ w.length := by
  induction h with
  | refl => exact Nat.le_refl _
  | tail _ hs ih =>
    obtain ⟨hr, l, m⟩ := hs
    have := List.length_pos_iff.mpr (hrs _ hr)
    simp only [List.length_append, List.length_cons] at ih ⊢
    omega

end Derives

end

namespace Grammar

/-- Whether the symbol reserved for the start rule is neither the start symbol nor in a rule. -/
def Unmarked (g : Grammar) : Prop :=
  g.start ≠ startMark ∧ ∀ r ∈ g.rules, r.lhs ≠ startMark ∧ startMark ∉ r.rhs

instance (g : Grammar) : Decidable g.Unmarked := inferInstanceAs (Decidable (_ ∧ _))

/-- The rules together with the start rule above them. -/
def augmented (g : Grammar) : List Rule := g.startRule :: g.rules

theorem isNonterminal_iff {g : Grammar} {s : Symbol} :
    g.isNonterminal s = true ↔ ∃ r ∈ g.rules, r.lhs = s := by
  simp only [isNonterminal, nonterminals, decide_eq_true_eq, List.mem_map]
  constructor
  · rintro ⟨grp, hg, rfl⟩
    obtain ⟨b, hb⟩ := List.exists_mem_of_ne_nil _ grp.inhabited
    exact ⟨⟨grp.lhs, b⟩, mem_rules.mpr ⟨grp, hg, rfl, hb⟩, rfl⟩
  · rintro ⟨r, hr, rfl⟩
    obtain ⟨grp, hg, hl, -⟩ := mem_rules.mp hr
    exact ⟨grp, hg, hl⟩

theorem isNonterminal_eq_false_iff {g : Grammar} {s : Symbol} :
    g.isNonterminal s = false ↔ ∀ r ∈ g.rules, r.lhs ≠ s := by
  rw [← Bool.not_eq_true, isNonterminal_iff]
  simp

end Grammar

/-- Rows without the reserved symbol derive nothing more by the start rule. -/
theorem Derives.of_augmented {g : Grammar} (hg : g.Unmarked) {u w : List Symbol}
    (hu : Grammar.startMark ∉ u) (h : Derives g.augmented u w) : Derives g.rules u w := by
  suffices Derives g.rules u w ∧ Grammar.startMark ∉ w from this.1
  induction h with
  | refl => exact ⟨refl u, hu⟩
  | tail _ hs ih =>
    obtain ⟨ih, hmark⟩ := ih
    obtain @⟨r, hr, l, m⟩ := hs
    simp only [List.mem_append, List.mem_cons, not_or] at hmark
    obtain ⟨hl, hlhs, hm⟩ := hmark
    have hr : r ∈ g.rules := by
      rcases List.mem_cons.mp hr with rfl | hr
      · exact absurd rfl hlhs
      · exact hr
    refine ⟨ih.tail (Rewrites.step hr l m), ?_⟩
    simp only [List.mem_append, not_or]
    exact ⟨hl, (hg.2 r hr).2, hm⟩

end Parsing
