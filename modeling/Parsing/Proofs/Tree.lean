/-
# Parse trees

A parse tree is a leaf, which is a symbol without rules, or a rule with a row of
trees below it, one for each symbol of its right-hand side. A row is taken apart
from its right end, the way a dot moves through a rule. The trees of a row put
their yields side by side.

A row of symbols derives a text of symbols without rules exactly when there is a
row of parse trees between the two (`derives_iff_exists_row`), and a single symbol
when there is a parse tree (`derives_iff_exists_tree`).

Key definitions: `Tree`, `Row`, `Tree.root`, `Row.symbols`, `Tree.yield`, `Tree.Valid`.
Key theorems: `Row.derives`, `derives_iff_exists_row`, `derives_iff_exists_tree`.
-/
import Mathlib.Data.List.Induction
import Parsing.Proofs.Rewriting

namespace Parsing

mutual

/-- A parse tree. -/
inductive Tree
  | leaf (a : Symbol)
  | node (lhs : Symbol) (row : Row)

/-- Trees side by side. -/
inductive Row
  | nil
  | snoc (init : Row) (last : Tree)

end

/-- The symbol at the root. -/
def Tree.root : Tree → Symbol
  | .leaf a => a
  | .node lhs _ => lhs

/-- The symbols at the roots. -/
def Row.symbols : Row → List Symbol
  | .nil => []
  | .snoc init last => init.symbols ++ [last.root]

theorem Row.symbols_snoc (init : Row) (last : Tree) :
    (Row.snoc init last).symbols = init.symbols ++ [last.root] := rfl

mutual

/-- The leaves from left to right. -/
def Tree.yield : Tree → List Symbol
  | .leaf a => [a]
  | .node _ row => row.yield

/-- The leaves from left to right. -/
def Row.yield : Row → List Symbol
  | .nil => []
  | .snoc init last => init.yield ++ last.yield

end

theorem Tree.yield_node (lhs : Symbol) (row : Row) : (Tree.node lhs row).yield = row.yield := rfl

theorem Row.yield_snoc (init : Row) (last : Tree) :
    (Row.snoc init last).yield = init.yield ++ last.yield := rfl

mutual

/-- Whether the leaves have no rules and every other node is one of the rules. -/
def Tree.Valid (rs : List Rule) : Tree → Prop
  | .leaf a => ∀ r ∈ rs, r.lhs ≠ a
  | .node lhs row => ⟨lhs, row.symbols⟩ ∈ rs ∧ row.Valid rs

/-- Whether every tree of the row is valid. -/
def Row.Valid (rs : List Rule) : Row → Prop
  | .nil => True
  | .snoc init last => init.Valid rs ∧ last.Valid rs

end

variable {rs : List Rule} {u v w : List Symbol}

mutual

theorem Tree.derives : ∀ t : Tree, t.Valid rs → Derives rs [t.root] t.yield
  | .leaf a, _ => .refl [a]
  | .node _ row, h => by
    obtain ⟨hr, hrow⟩ := h
    exact (Derives.of_rule hr).trans (row.derives hrow)

theorem Row.derives : ∀ row : Row, row.Valid rs → Derives rs row.symbols row.yield
  | .nil, _ => .refl []
  | .snoc init last, h => (init.derives h.1).append (last.derives h.2)

end

/-- Whether some row of parse trees for the symbols `u` has the yield `w`. -/
def HasRow (rs : List Rule) (u w : List Symbol) : Prop :=
  ∃ row : Row, row.Valid rs ∧ row.symbols = u ∧ row.yield = w

/-- Whether some parse tree for the symbol `s` has the yield `w`. -/
def HasTree (rs : List Rule) (s : Symbol) (w : List Symbol) : Prop :=
  ∃ t : Tree, t.Valid rs ∧ t.root = s ∧ t.yield = w

theorem hasRow_nil_iff : HasRow rs [] w ↔ w = [] := by
  constructor
  · rintro ⟨row, -, hs, rfl⟩
    cases row with
    | nil => rfl
    | snoc init last => simp [Row.symbols] at hs
  · rintro rfl
    exact ⟨.nil, trivial, rfl, rfl⟩

theorem hasRow_concat_iff {s : Symbol} :
    HasRow rs (u ++ [s]) w ↔ ∃ w₁ w₂, w = w₁ ++ w₂ ∧ HasRow rs u w₁ ∧ HasTree rs s w₂ := by
  constructor
  · rintro ⟨row, hv, hs, rfl⟩
    cases row with
    | nil => simp [Row.symbols] at hs
    | snoc init last =>
      obtain ⟨rfl, hl⟩ := List.append_inj' hs rfl
      exact ⟨init.yield, last.yield, rfl, ⟨init, hv.1, rfl, rfl⟩,
        ⟨last, hv.2, by simpa using hl, rfl⟩⟩
  · rintro ⟨_, _, rfl, ⟨init, hi, rfl, rfl⟩, ⟨last, hl, rfl, rfl⟩⟩
    exact ⟨.snoc init last, ⟨hi, hl⟩, rfl, rfl⟩

theorem hasRow_singleton_iff {s : Symbol} : HasRow rs [s] w ↔ HasTree rs s w := by
  rw [← List.nil_append [s], hasRow_concat_iff]
  constructor
  · rintro ⟨w₁, w₂, rfl, h, ht⟩
    rw [hasRow_nil_iff.mp h]
    exact ht
  · intro ht
    exact ⟨[], w, rfl, hasRow_nil_iff.mpr rfl, ht⟩

/-- Rows of trees are put together and taken apart anywhere. -/
theorem hasRow_append_iff :
    HasRow rs (u ++ v) w ↔ ∃ w₁ w₂, w = w₁ ++ w₂ ∧ HasRow rs u w₁ ∧ HasRow rs v w₂ := by
  induction v using List.reverseRecOn generalizing w with
  | nil =>
    simp only [List.append_nil, hasRow_nil_iff]
    exact ⟨fun h => ⟨w, [], by simp, h, rfl⟩, fun ⟨w₁, w₂, e, h, h₂⟩ => by simpa [e, h₂] using h⟩
  | append_singleton v s ih =>
    rw [← List.append_assoc, hasRow_concat_iff]
    constructor
    · rintro ⟨_, w₃, rfl, huv, ht⟩
      obtain ⟨w₁, w₂, rfl, hu, hv⟩ := ih.mp huv
      exact ⟨w₁, w₂ ++ w₃, by simp, hu, hasRow_concat_iff.mpr ⟨w₂, w₃, rfl, hv, ht⟩⟩
    · rintro ⟨w₁, _, rfl, hu, hvs⟩
      obtain ⟨w₂, w₃, rfl, hv, ht⟩ := hasRow_concat_iff.mp hvs
      exact ⟨w₁ ++ w₂, w₃, by simp, ih.mpr ⟨w₁, w₂, rfl, hu, hv⟩, ht⟩

/-- Symbols without rules are rows of leaves. -/
theorem hasRow_self (hw : ∀ a ∈ w, ∀ r ∈ rs, r.lhs ≠ a) : HasRow rs w w := by
  induction w using List.reverseRecOn with
  | nil => exact hasRow_nil_iff.mpr rfl
  | append_singleton w a ih =>
    refine hasRow_concat_iff.mpr ⟨w, [a], rfl, ih fun b hb => hw b (by simp [hb]), ?_⟩
    exact ⟨.leaf a, hw a (by simp), rfl, rfl⟩

/-- A step of rewriting puts one more rule above the trees. -/
theorem HasRow.of_rewrites (hs : Rewrites rs u v) (h : HasRow rs v w) : HasRow rs u w := by
  obtain @⟨r, hr, before, after⟩ := hs
  obtain ⟨w₁, _, rfl, h₁, h⟩ := hasRow_append_iff.mp h
  obtain ⟨w₂, w₃, rfl, ⟨row, hv, hsym, rfl⟩, h₃⟩ := hasRow_append_iff.mp h
  have hnode : HasRow rs [r.lhs] row.yield :=
    hasRow_singleton_iff.mpr ⟨.node r.lhs row, ⟨by rw [hsym]; exact hr, hv⟩, rfl, rfl⟩
  exact hasRow_append_iff.mpr ⟨w₁, _, rfl, h₁, hasRow_append_iff.mpr ⟨_, w₃, rfl, hnode, h₃⟩⟩

/-- **Derivations are parse trees.** A row of symbols derives a text of symbols without rules
exactly when a row of parse trees leads from the one to the other. -/
theorem derives_iff_exists_row (hw : ∀ a ∈ w, ∀ r ∈ rs, r.lhs ≠ a) :
    Derives rs u w ↔ HasRow rs u w := by
  constructor
  · intro h
    induction h using Relation.ReflTransGen.head_induction_on with
    | refl => exact hasRow_self hw
    | head hs _ ih => exact .of_rewrites hs ih
  · rintro ⟨row, hv, rfl, rfl⟩
    exact row.derives hv

theorem derives_iff_exists_tree {s : Symbol} (hw : ∀ a ∈ w, ∀ r ∈ rs, r.lhs ≠ a) :
    Derives rs [s] w ↔ HasTree rs s w :=
  (derives_iff_exists_row hw).trans hasRow_singleton_iff

end Parsing
