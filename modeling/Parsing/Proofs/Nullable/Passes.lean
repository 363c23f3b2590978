/-
# Passes until one adds nothing

Passes that note whether they have added a symbol need no count of nonterminals: they are made until
one adds nothing (`Grammar.nullableWithin`). The note is right, since a pass takes nothing away: it
leaves what it finds exactly when no step of it has added anything (`Grammar.notedPass_eq`). Each
pass but the last one adds a nonterminal, so there is a last one
(`Grammar.isSome_nullableWithin`); and what it leaves is closed, as are the nullable symbols, which
come from the same passes. Of two rows that passes leave and that are closed the later one
adds nothing to the earlier one, so the two are equal.

A symbol is among them when a tree of rules below it has no leaf, whatever the order of rules.

Key theorems: `Grammar.notedPass_eq`, `Grammar.eq_nullable_of_nullableWithin`,
`Grammar.isSome_nullableWithin`, `Grammar.nullable_exact`.
-/
import Parsing.Proofs.Nullable
import Parsing.Proofs.Tree

namespace Parsing.Grammar

variable {g : Grammar} {known : List Symbol} {n : Nat}

/-! ### The note of a pass -/

theorem notedStep_eq (known : List Symbol) (added : Bool) (r : Rule) :
    notedStep (known, added) r =
      (nullableStep known r, added || decide (nullableStep known r ≠ known)) := by
  unfold notedStep nullableStep
  by_cases hmem : r.lhs ∈ known
  · simp [hmem]
  · by_cases hrhs : ∀ s ∈ r.rhs, s ∈ known
    · rw [if_neg hmem, if_pos hrhs, if_pos ⟨hmem, hrhs⟩]
      simp
    · rw [if_neg hmem, if_neg hrhs, if_neg fun h => hrhs h.2]
      simp

theorem prefix_foldl_nullableStep (rs : List Rule) (known : List Symbol) :
    known <+: rs.foldl nullableStep known := by
  induction rs generalizing known with
  | nil => exact List.prefix_refl _
  | cons r rs ih => exact (prefix_nullableStep known r).trans (ih _)

/-- Steps are noted to have added something when they leave more than there was. -/
theorem foldl_notedStep (rs : List Rule) (known : List Symbol) (added : Bool) :
    rs.foldl notedStep (known, added) =
      (rs.foldl nullableStep known, added || decide (rs.foldl nullableStep known ≠ known)) := by
  induction rs generalizing known added with
  | nil => simp
  | cons r rs ih =>
    have hstep := prefix_nullableStep known r
    have hrest := prefix_foldl_nullableStep rs (nullableStep known r)
    -- nothing is taken away, so what is left is what was there only if no step has added anything
    have hsame : rs.foldl nullableStep (nullableStep known r) = known ↔
        nullableStep known r = known ∧
          rs.foldl nullableStep (nullableStep known r) = nullableStep known r := by
      refine ⟨fun h => ?_, fun h => h.2.trans h.1⟩
      have hle := hrest.length_le
      rw [h] at hle
      have heq : nullableStep known r = known := (hstep.eq_of_length_le hle).symm
      exact ⟨heq, h.trans heq.symm⟩
    rw [List.foldl_cons, List.foldl_cons, notedStep_eq, ih]
    simp only [ne_eq, hsame, not_and_or, Bool.decide_or, Bool.or_assoc]

/-- **A pass is noted to have added something when it leaves more than there was.** -/
theorem notedPass_eq (g : Grammar) (known : List Symbol) :
    g.notedPass known = (g.nullablePass known, decide (g.nullablePass known ≠ known)) := by
  unfold notedPass nullablePass
  rw [foldl_notedStep, Bool.false_or]

/-! ### The last pass -/

theorem nullableWithin_succ (g : Grammar) (n : Nat) (known : List Symbol) :
    g.nullableWithin (n + 1) known =
      if g.nullablePass known = known then some known
      else g.nullableWithin n (g.nullablePass known) := by
  rw [nullableWithin, notedPass_eq]
  by_cases h : g.nullablePass known = known
  · simp [h]
  · simp [h]

/-- What the last pass leaves is closed, and comes from passes only. -/
theorem closes_of_nullableWithin {k : Nat}
    (h : g.nullableWithin n (Nat.repeat g.nullablePass k []) = some known) :
    g.Closes known ∧ ∃ m, known = Nat.repeat g.nullablePass m [] := by
  induction n generalizing k with
  | zero => cases h
  | succ n ih =>
    rw [nullableWithin_succ] at h
    by_cases hsame : g.nullablePass (Nat.repeat g.nullablePass k []) =
        Nat.repeat g.nullablePass k []
    · rw [if_pos hsame] at h
      cases h
      exact ⟨closes_of_nullablePass hsame, k, rfl⟩
    · rw [if_neg hsame] at h
      exact ih (k := k + 1) h

theorem Closes.repeat_eq {k m : Nat} (h : g.Closes (Nat.repeat g.nullablePass k []))
    (hkm : k ≤ m) : Nat.repeat g.nullablePass m [] = Nat.repeat g.nullablePass k [] := by
  obtain ⟨more, rfl⟩ := Nat.exists_eq_add_of_le hkm
  clear hkm
  induction more with
  | zero => rfl
  | succ more ih =>
    change g.nullablePass (Nat.repeat g.nullablePass (k + more) []) = _
    rw [ih, h.nullablePass]

/-- **What is known when a pass adds nothing are the nullable symbols.** -/
theorem eq_nullable_of_nullableWithin (h : g.nullableWithin n [] = some known) :
    known = g.nullable := by
  obtain ⟨hclosed, m, rfl⟩ := closes_of_nullableWithin (k := 0) h
  rcases Nat.le_total m g.nonterminals.length with hle | hle
  · exact (hclosed.repeat_eq hle).symm
  · exact g.closes_nullable.repeat_eq hle

/-- **Some pass adds nothing**, for there are only so many nonterminals to add. -/
theorem isSome_nullableWithin (hnodup : known.Nodup) (hsub : known ⊆ g.nonterminals)
    (hn : g.nonterminals.length < n + known.length) :
    (g.nullableWithin n known).isSome = true := by
  induction n generalizing known with
  | zero =>
    have hle := (List.subperm_of_subset hnodup hsub).length_le
    omega
  | succ n ih =>
    rw [nullableWithin_succ]
    by_cases hsame : g.nullablePass known = known
    · rw [if_pos hsame]
      rfl
    · rw [if_neg hsame]
      have hlt := length_lt_nullablePass hsame
      exact ih (nodup_nullablePass hnodup) (nullablePass_subset hsub) (by omega)

theorem nullableWithin_eq (hn : g.nonterminals.length < n) :
    g.nullableWithin n [] = some g.nullable := by
  have hsome := isSome_nullableWithin (g := g) (n := n) List.nodup_nil (List.nil_subset _) hn
  obtain ⟨known, h⟩ := Option.isSome_iff_exists.mp hsome
  rw [h, eq_nullable_of_nullableWithin h]

/-- **Nullable symbols.** Passes over the rules come to one that adds nothing, at the latest when
there has been one for each nonterminal and one more. What is known then are the nullable symbols,
each once: those that derive the empty text, and so those above a tree of rules without leaves.
Grammars with the same rules have the same nullable symbols, whatever the order of the rules. -/
theorem nullable_exact (g : Grammar) :
    (∀ n, g.nonterminals.length < n → g.nullableWithin n [] = some g.nullable) ∧
    (∀ n known, g.nullableWithin n [] = some known → known = g.nullable) ∧
    g.nullable.Nodup ∧
    (∀ s, s ∈ g.nullable ↔ Derives g.rules [s] []) ∧
    (∀ s, s ∈ g.nullable ↔ HasTree g.rules s []) ∧
    ∀ g' : Grammar, (∀ r, r ∈ g'.rules ↔ r ∈ g.rules) → g'.nullable.Perm g.nullable := by
  have htree : ∀ (g : Grammar) s, s ∈ g.nullable ↔ HasTree g.rules s [] := fun g s =>
    mem_nullable_iff.trans (derives_iff_exists_tree (by simp))
  have hmono : ∀ {g g' : Grammar}, g.rules ⊆ g'.rules → g.nullable ⊆ g'.nullable := by
    intro g g' hsub s hs
    exact mem_nullable_iff.mpr ((mem_nullable_iff.mp hs).mono hsub)
  refine ⟨fun n hn => nullableWithin_eq hn, fun n known h => eq_nullable_of_nullableWithin h,
    g.nodup_nullable, fun s => mem_nullable_iff, htree g, fun g' hrules => ?_⟩
  refine (List.perm_ext_iff_of_nodup g'.nodup_nullable g.nodup_nullable).mpr fun s => ?_
  exact ⟨fun h => hmono (fun r hr => (hrules r).mp hr) h,
    fun h => hmono (fun r hr => (hrules r).mpr hr) h⟩

end Parsing.Grammar
