/-
# Nullable symbols

The symbols that the passes collect are exactly those that derive the empty text
(`Grammar.mem_nullable_iff`). A symbol is collected only when its whole right-hand side has
been, so it derives nothing. Conversely, a pass that adds no symbol leaves none to add, and one
that adds some adds nonterminals; so with as many passes as nonterminals either some pass has
added none or all nonterminals are there (`Grammar.closes_or_le`).

Key definitions: `Grammar.Closes`.
Key theorems: `Grammar.derives_of_mem_nullable`, `Grammar.closes_nullable`,
`Grammar.mem_nullable_iff`.
-/
import Mathlib.Data.List.Nodup
import Mathlib.Data.List.Perm.Subperm
import Parsing.Grammar.Nullable
import Parsing.Proofs.Rewriting

namespace Parsing

/-- Symbols that each derive nothing derive nothing side by side. -/
theorem Derives.nil_of_forall {rs : List Rule} {u : List Symbol}
    (h : ∀ s ∈ u, Derives rs [s] []) : Derives rs u [] := by
  induction u with
  | nil => exact .refl []
  | cons s u ih =>
    exact (h s List.mem_cons_self).append (ih fun t ht => h t (List.mem_cons_of_mem _ ht))

namespace Grammar

/-- Whether no rule is left whose right-hand side is known and whose left-hand side is not. -/
def Closes (g : Grammar) (known : List Symbol) : Prop :=
  ∀ r ∈ g.rules, (∀ s ∈ r.rhs, s ∈ known) → r.lhs ∈ known

variable {g : Grammar} {known : List Symbol}

/-! ### One step -/

theorem prefix_nullableStep (known : List Symbol) (r : Rule) : known <+: nullableStep known r := by
  unfold nullableStep
  split
  · exact List.prefix_append _ _
  · exact List.prefix_refl _

theorem lhs_mem_nullableStep {r : Rule} (h : ∀ s ∈ r.rhs, s ∈ known) :
    r.lhs ∈ nullableStep known r := by
  unfold nullableStep
  by_cases hmem : r.lhs ∈ known
  · rw [if_neg (by simp [hmem])]
    exact hmem
  · rw [if_pos ⟨hmem, h⟩]
    exact List.mem_append_right _ (List.mem_singleton_self _)

/-- What steps keep, a pass keeps. -/
theorem nullablePass_induction {P : List Symbol → Prop} (h : P known)
    (step : ∀ known, P known → ∀ r ∈ g.rules, P (nullableStep known r)) :
    P (g.nullablePass known) := by
  unfold nullablePass
  revert step
  generalize g.rules = rs
  intro step
  induction rs generalizing known with
  | nil => exact h
  | cons r rs ih =>
    exact ih (step known h r List.mem_cons_self) fun known hk r hr =>
      step known hk r (List.mem_cons_of_mem _ hr)

theorem nodup_nullableStep {r : Rule} (h : known.Nodup) : (nullableStep known r).Nodup := by
  unfold nullableStep
  split
  · next hnew =>
    refine List.nodup_append.mpr ⟨h, List.nodup_singleton _, fun a ha b hb e => ?_⟩
    exact hnew.1 (List.mem_singleton.mp hb ▸ e ▸ ha)
  · exact h

theorem forall_mem_nullableStep {P : Symbol → Prop} {r : Rule} (h : ∀ s ∈ known, P s)
    (hr : (∀ s ∈ r.rhs, P s) → P r.lhs) : ∀ s ∈ nullableStep known r, P s := by
  unfold nullableStep
  split
  · next hnew =>
    intro s hs
    rcases List.mem_append.mp hs with hs | hs
    · exact h s hs
    · rw [List.mem_singleton.mp hs]
      exact hr fun t ht => h t (hnew.2 t ht)
  · exact h

/-! ### One pass -/

theorem prefix_nullablePass (g : Grammar) (known : List Symbol) : known <+: g.nullablePass known :=
  nullablePass_induction (P := (known <+: ·)) (List.prefix_refl _) fun _ h r _ =>
    h.trans (prefix_nullableStep _ r)

theorem lhs_mem_nullablePass {r : Rule} (hr : r ∈ g.rules) (h : ∀ s ∈ r.rhs, s ∈ known) :
    r.lhs ∈ g.nullablePass known := by
  unfold nullablePass
  generalize g.rules = rs at hr
  induction rs generalizing known with
  | nil => cases hr
  | cons q rs ih =>
    rw [List.foldl_cons]
    rcases List.mem_cons.mp hr with rfl | hr
    · exact subset_foldl_nullableStep rs _ (lhs_mem_nullableStep h)
    · exact ih (fun s hs => subset_nullableStep known q (h s hs)) hr

theorem nodup_nullablePass (h : known.Nodup) : (g.nullablePass known).Nodup :=
  nullablePass_induction h fun _ hk _ _ => nodup_nullableStep hk

theorem nullablePass_subset (h : known ⊆ g.nonterminals) :
    g.nullablePass known ⊆ g.nonterminals := by
  refine nullablePass_induction (P := (· ⊆ g.nonterminals)) h fun now hnow r hr => ?_
  exact forall_mem_nullableStep hnow fun _ =>
    of_decide_eq_true (isNonterminal_iff.mpr ⟨r, hr, rfl⟩)

/-- A pass that does not leave what it finds adds to it. -/
theorem length_lt_nullablePass (h : g.nullablePass known ≠ known) :
    known.length < (g.nullablePass known).length := by
  have hpre := prefix_nullablePass g known
  exact Nat.lt_of_le_of_ne hpre.length_le fun e => h (hpre.eq_of_length e).symm

/-- A pass that adds nothing leaves nothing to add. -/
theorem closes_of_nullablePass (h : g.nullablePass known = known) : g.Closes known :=
  fun _ hr hrhs => h ▸ lhs_mem_nullablePass hr hrhs

theorem Closes.nullablePass (h : g.Closes known) : g.nullablePass known = known :=
  nullablePass_induction (P := (· = known)) rfl fun now hnow r hr => by
    rw [hnow]
    unfold nullableStep
    exact if_neg fun hnew => hnew.1 (h r hr hnew.2)

/-! ### All passes -/

/-- The symbols known after so many passes. -/
theorem repeat_induction {P : List Symbol → Prop} (h : P [])
    (step : ∀ known, P known → P (g.nullablePass known)) :
    ∀ n, P (Nat.repeat g.nullablePass n [])
  | 0 => h
  | n + 1 => step _ (repeat_induction h step n)

theorem nodup_nullable (g : Grammar) : g.nullable.Nodup :=
  repeat_induction (P := List.Nodup) List.nodup_nil (fun _ h => nodup_nullablePass h) _

/-- **What has been collected derives nothing.** -/
theorem derives_of_mem_nullable {s : Symbol} (h : s ∈ g.nullable) : Derives g.rules [s] [] := by
  let P : List Symbol → Prop := fun known => ∀ s ∈ known, Derives g.rules [s] []
  have hall : P g.nullable := by
    refine repeat_induction (by simp [P])
      (fun known h => nullablePass_induction (P := P) h fun now hnow r hr => ?_) _
    exact forall_mem_nullableStep hnow fun hrhs =>
      (Derives.of_rule hr).trans (.nil_of_forall hrhs)
  exact hall s h

theorem subset_nonterminals_repeat (g : Grammar) (n : Nat) :
    Nat.repeat g.nullablePass n [] ⊆ g.nonterminals :=
  repeat_induction (P := (· ⊆ g.nonterminals)) (List.nil_subset _)
    (fun _ h => nullablePass_subset h) n

/-- After some passes nothing is left to add, or each of them has added something. -/
theorem closes_or_le (g : Grammar) : ∀ n, g.Closes (Nat.repeat g.nullablePass n []) ∨
    n ≤ (Nat.repeat g.nullablePass n []).length
  | 0 => .inr (Nat.zero_le _)
  | n + 1 => by
    change g.Closes (g.nullablePass (Nat.repeat g.nullablePass n [])) ∨
      n + 1 ≤ (g.nullablePass (Nat.repeat g.nullablePass n [])).length
    rcases closes_or_le g n with hclosed | hle
    · rw [hclosed.nullablePass]
      exact .inl hclosed
    · by_cases hsame : g.nullablePass (Nat.repeat g.nullablePass n []) =
          Nat.repeat g.nullablePass n []
      · rw [hsame]
        exact .inl (closes_of_nullablePass hsame)
      · exact .inr (Nat.lt_of_le_of_lt hle (length_lt_nullablePass hsame))

/-- **Nothing is left to collect.** -/
theorem closes_nullable (g : Grammar) : g.Closes g.nullable := by
  rcases closes_or_le g g.nonterminals.length with h | h
  · exact h
  · -- all nonterminals have been collected
    have hperm : g.nullable.Perm g.nonterminals :=
      (List.subperm_of_subset g.nodup_nullable
        (subset_nonterminals_repeat g _)).perm_of_length_le h
    intro r hr _
    exact hperm.mem_iff.mpr (of_decide_eq_true (isNonterminal_iff.mpr ⟨r, hr, rfl⟩))

/-- **The symbols collected are those that derive the empty text.** -/
theorem mem_nullable_iff {s : Symbol} : s ∈ g.nullable ↔ Derives g.rules [s] [] := by
  refine ⟨derives_of_mem_nullable, fun h => ?_⟩
  have hall : ∀ u, Derives g.rules u [] → ∀ s ∈ u, s ∈ g.nullable := by
    intro u hu
    induction hu using Relation.ReflTransGen.head_induction_on with
    | refl => simp
    | head hstep _ ih =>
      obtain @⟨r, hr, before, after⟩ := hstep
      have hlhs := g.closes_nullable r hr fun s hs => ih s (by simp [hs])
      intro s hs
      rcases List.mem_append.mp hs with hs | hs
      · exact ih s (by simp [hs])
      · rcases List.mem_cons.mp hs with rfl | hs
        · exact hlhs
        · exact ih s (by simp [hs])
  exact hall [s] h s (List.mem_singleton_self s)

end Grammar

end Parsing
