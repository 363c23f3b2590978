/-
# Items

An item is a rule with a dot in its right-hand side: what stands before the dot
has been recognised, what stands after it is still to come.

Key definitions: `Item`, `Item.atStart`, `Item.place`, `Item.advance`, `Item.next?`,
`Item.dotted`, `Item.text`.
-/
import Parsing.Fault

namespace Parsing

/-- A rule of whose right-hand side the first `dot` symbols have been recognised. -/
structure Item where
  rule : Rule
  dot : Nat
  dot_le : dot ≤ rule.rhs.length
deriving DecidableEq

namespace Item

/-- The rule with the dot before its right-hand side. -/
def atStart (rule : Rule) : Item := ⟨rule, 0, Nat.zero_le _⟩

/-- The rule with the dot after `dot` symbols; it has to have as many. -/
def place (rule : Rule) (dot : Nat) : Except Fault Item :=
  if h : dot ≤ rule.rhs.length then .ok ⟨rule, dot, h⟩ else .error (.dotPastEnd rule dot)

/-- The item with its dot one symbol further on. -/
def advance (it : Item) : Except Fault Item := place it.rule (it.dot + 1)

/-- The left-hand side of the rule. -/
def lhs (it : Item) : Symbol := it.rule.lhs

/-- The symbol after the dot. -/
def next? (it : Item) : Option Symbol := it.rule.rhs[it.dot]?

/-- Whether the dot stands at the end. -/
def isComplete (it : Item) : Bool := it.dot == it.rule.rhs.length

/-- The item `lhs -> before . after`. -/
def dotted (lhs : Symbol) (before after : List Symbol) : Item :=
  ⟨⟨lhs, before ++ after⟩, before.length, by simp⟩

/-- The rule with its dot, as in `T -> b b . b`. -/
def text (it : Item) : String :=
  " ".intercalate
    (it.lhs :: "->" :: (it.rule.rhs.take it.dot ++ "." :: it.rule.rhs.drop it.dot))

theorem isComplete_iff {it : Item} : it.isComplete = true ↔ it.next? = none := by
  have := it.dot_le
  simp only [isComplete, next?, beq_iff_eq, List.getElem?_eq_none_iff]
  omega

theorem advance_of_next? {it : Item} {s : Symbol} (h : it.next? = some s) :
    ∃ h' : it.dot + 1 ≤ it.rule.rhs.length, it.advance = .ok ⟨it.rule, it.dot + 1, h'⟩ := by
  obtain ⟨h', _⟩ := List.getElem?_eq_some_iff.mp h
  have h' : it.dot + 1 ≤ it.rule.rhs.length := h'
  exact ⟨h', by simp [advance, place, h']⟩

@[ext] theorem ext {a b : Item} (hr : a.rule = b.rule) (hd : a.dot = b.dot) : a = b := by
  obtain ⟨r, d, h⟩ := a
  obtain ⟨r', d', h'⟩ := b
  cases hr
  cases hd
  rfl

theorem advance_eq_ok_iff {it it' : Item} :
    it.advance = .ok it' ↔ it'.rule = it.rule ∧ it'.dot = it.dot + 1 := by
  have hle := it'.dot_le
  unfold advance place
  constructor
  · intro h
    split at h
    · cases h
      exact ⟨rfl, rfl⟩
    · cases h
  · rintro ⟨hr, hd⟩
    rw [hr, hd] at hle
    rw [dif_pos hle]
    exact congrArg Except.ok (ext hr.symm hd.symm)

/-- What stands before the dot gains the symbol that the dot passes. -/
theorem take_dot_of_advance {it it' : Item} {s : Symbol} (hs : it.next? = some s)
    (ha : it.advance = .ok it') :
    it'.rule.rhs.take it'.dot = it.rule.rhs.take it.dot ++ [s] := by
  obtain ⟨hr, hd⟩ := advance_eq_ok_iff.mp ha
  have hs : it.rule.rhs[it.dot]? = some s := hs
  rw [hr, hd, List.take_add_one, hs]
  rfl

theorem take_dot_of_isComplete {it : Item} (h : it.isComplete = true) :
    it.rule.rhs.take it.dot = it.rule.rhs := by
  have hlen : it.dot = it.rule.rhs.length := by simpa [isComplete] using h
  rw [hlen, List.take_length]

@[simp] theorem lhs_dotted (lhs : Symbol) (before after : List Symbol) :
    (dotted lhs before after).lhs = lhs := rfl

theorem next?_dotted_cons (lhs s : Symbol) (before after : List Symbol) :
    (dotted lhs before (s :: after)).next? = some s := by
  simp [dotted, next?]

theorem isComplete_dotted_nil (lhs : Symbol) (before : List Symbol) :
    (dotted lhs before []).isComplete = true := by
  simp [dotted, isComplete]

theorem advance_dotted (lhs s : Symbol) (before after : List Symbol) :
    (dotted lhs before (s :: after)).advance = .ok (dotted lhs (before ++ [s]) after) := by
  rw [advance_eq_ok_iff]
  simp [dotted]

theorem dotted_take_drop (it : Item) :
    dotted it.lhs (it.rule.rhs.take it.dot) (it.rule.rhs.drop it.dot) = it := by
  have := it.dot_le
  refine ext ?_ ?_
  · simp [dotted, lhs]
  · simp [dotted, this]

end Item

end Parsing
