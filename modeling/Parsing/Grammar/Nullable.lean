/-
# Nullable symbols

A symbol is nullable when it derives the empty string: one of its rules has a
right-hand side of nullable symbols only. Passes over the rules collect these
symbols; each pass that changes anything adds a nonterminal, so as many passes
as there are nonterminals are enough. Who does not count nonterminals makes passes until
one has added nothing.

Key definitions: `Grammar.nullablePass`, `Grammar.nullable`, `Grammar.nullableWithin`.
-/
import Parsing.Grammar

namespace Parsing.Grammar

/-- The left-hand side of `r` joins `known` if its whole right-hand side is known. -/
def nullableStep (known : List Symbol) (r : Rule) : List Symbol :=
  if r.lhs ∉ known ∧ ∀ s ∈ r.rhs, s ∈ known then known ++ [r.lhs] else known

/-- One pass over the rules, in order. -/
def nullablePass (g : Grammar) (known : List Symbol) : List Symbol :=
  g.rules.foldl nullableStep known

/-- The symbols that derive the empty string, each once. -/
def nullable (g : Grammar) : List Symbol :=
  Nat.repeat g.nullablePass g.nonterminals.length []

/-- What a pass does with one rule, when it notes whether it has added a symbol. -/
def notedStep (now : List Symbol × Bool) (r : Rule) : List Symbol × Bool :=
  if r.lhs ∈ now.1 then now
  else if ∀ s ∈ r.rhs, s ∈ now.1 then (now.1 ++ [r.lhs], true)
  else now

/-- One pass over the rules, in order, and whether it has added a symbol. -/
def notedPass (g : Grammar) (known : List Symbol) : List Symbol × Bool :=
  g.rules.foldl notedStep (known, false)

/-- What is known when a pass adds nothing, if one of the first `n` passes does. -/
def nullableWithin (g : Grammar) : Nat → List Symbol → Option (List Symbol)
  | 0, _ => none
  | n + 1, known =>
    match g.notedPass known with
    | (known', true) => g.nullableWithin n known'
    | (known', false) => some known'

theorem subset_nullableStep (known : List Symbol) (r : Rule) : known ⊆ nullableStep known r := by
  unfold nullableStep
  split <;> simp

theorem subset_foldl_nullableStep (rs : List Rule) (known : List Symbol) :
    known ⊆ rs.foldl nullableStep known := by
  induction rs generalizing known with
  | nil => exact List.Subset.refl _
  | cons r rs ih => exact List.Subset.trans (subset_nullableStep known r) (ih _)

end Parsing.Grammar
