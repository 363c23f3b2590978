/-
# What recognition can reach

Recognition reaches an item between two positions when its moves lead to it: the rules for a
symbol that is expanded are entered where a dot stands before it, the dot moves over such a symbol
at once if it is known to be nullable, over a symbol that is not expanded when it reads the token
ahead, and over the left-hand side of what is complete from there on. This says what a recognizer
does, for any grammar and lexicon, and not yet what that means: a category that has rules is not
expanded, yet these rules may make other symbols nullable.

Of the moves only one depends on the order in which states arrive: where something is complete at
its own start, what waits for it there may arrive later. So all that is reached is found if such
symbols can be skipped (`Recognizer.Skips`). A recognizer with the nullable symbols of a grammar
that does not mention the reserved symbol can do so, whatever its lexicon.

Key definitions: `Recognizer.Expands`, `Recognizer.Reaches`, `Recognizer.Skips`.
Key theorems: `Recognizer.Reaches.rule_mem`, `Grammar.recognizer_skips`.
-/
import Parsing.Chart
import Parsing.Proofs.Fits
import Parsing.Proofs.Nullable

namespace Parsing

/-- Whether the symbol is expanded by its rules: it has some, and is no category. -/
def Recognizer.Expands (r : Recognizer) (s : Symbol) : Prop :=
  r.lexicon.isCategory s = false ∧ r.grammar.isNonterminal s = true

instance (r : Recognizer) (s : Symbol) : Decidable (r.Expands s) :=
  inferInstanceAs (Decidable (_ ∧ _))

/-- Whether recognition of the tokens comes to the item between the two positions. -/
inductive Recognizer.Reaches (r : Recognizer) (tokens : List String) : Item → Nat → Nat → Prop
  | start : r.Reaches tokens (.atStart r.grammar.startRule) 0 0
  | predict {it : Item} {o i : Nat} {s : Symbol} {rule : Rule} (h : r.Reaches tokens it o i)
      (hs : it.next? = some s) (hx : r.Expands s) (hr : rule ∈ r.grammar.rulesFor s) :
      r.Reaches tokens (.atStart rule) i i
  | skip {it it' : Item} {o i : Nat} {s : Symbol} (h : r.Reaches tokens it o i)
      (hs : it.next? = some s) (hx : r.Expands s) (hn : s ∈ r.nullable)
      (ha : it.advance = .ok it') : r.Reaches tokens it' o i
  | scan {it it' : Item} {o i : Nat} {s : Symbol} {t : String} (h : r.Reaches tokens it o i)
      (hs : it.next? = some s) (hx : ¬ r.Expands s) (ha : it.advance = .ok it')
      (ht : tokens[i]? = some t) (hread : r.reads s t = true) : r.Reaches tokens it' o (i + 1)
  | complete {it it' done : Item} {o k i : Nat} (h : r.Reaches tokens it o k)
      (hs : it.next? = some done.lhs) (ha : it.advance = .ok it')
      (hd : r.Reaches tokens done k i) (hc : done.isComplete = true) : r.Reaches tokens it' o i

/-- Whether the symbols of all that is complete where it starts, and that something waits for, can
be skipped. -/
def Recognizer.Skips (r : Recognizer) (tokens : List String) : Prop :=
  ∀ (it done : Item) (o i : Nat), r.Reaches tokens it o i → it.next? = some done.lhs →
    r.Reaches tokens done i i → done.isComplete = true →
    r.Expands done.lhs ∧ done.lhs ∈ r.nullable

namespace Recognizer.Reaches

variable {r : Recognizer} {tokens : List String} {it : Item} {o i : Nat}

theorem origin_le (h : r.Reaches tokens it o i) : o ≤ i := by
  induction h with
  | start | predict => exact Nat.le_refl _
  | skip _ _ _ _ _ ih => exact ih
  | scan _ _ _ _ _ _ ih => omega
  | complete _ _ _ _ _ ih₁ ih₂ => omega

theorem stop_le (h : r.Reaches tokens it o i) : i ≤ tokens.length := by
  induction h with
  | start => exact Nat.zero_le _
  | predict _ _ _ _ ih | skip _ _ _ _ _ ih => exact ih
  | scan _ _ _ _ ht _ _ => exact (List.getElem?_eq_some_iff.mp ht).1
  | complete _ _ _ _ _ _ ih => exact ih

theorem rule_entered (h : r.Reaches tokens it o i) :
    it.rule = r.grammar.startRule ∨ it.rule ∈ r.grammar.rules ∧ r.Expands it.lhs := by
  induction h with
  | start => exact .inl rfl
  | predict _ _ hx hr _ =>
    obtain ⟨hmem, rfl⟩ := Grammar.mem_rulesFor.mp hr
    exact .inr ⟨hmem, hx⟩
  | skip _ _ _ _ ha ih | scan _ _ _ ha _ _ ih | complete _ _ ha _ _ ih _ =>
    unfold Item.lhs at ih ⊢
    rwa [(Item.advance_eq_ok_iff.mp ha).1]

theorem rule_mem (h : r.Reaches tokens it o i) : it.rule ∈ r.grammar.augmented :=
  List.mem_cons.mpr (h.rule_entered.imp id (·.1))

theorem origin_eq (h : r.Reaches tokens it o i) (hd : it.dot = 0) : o = i := by
  cases h with
  | start | predict => rfl
  | skip _ _ _ _ ha | scan _ _ _ ha _ _ | complete _ _ ha _ _ =>
    simp [(Item.advance_eq_ok_iff.mp ha).2] at hd

theorem length_slots_le {slots : List (Item × Nat)} (hnodup : slots.Nodup)
    (h : ∀ it o, (it, o) ∈ slots → r.Reaches tokens it o i) :
    slots.length ≤ (i + 1) * r.grammar.itemCount :=
  Grammar.length_slots_le hnodup fun it o hmem => ⟨(h it o hmem).rule_mem, (h it o hmem).origin_le⟩

end Recognizer.Reaches

/-! ### Skipping -/

section

variable {g : Grammar} {lex : Lexicon} {tokens : List String} {it : Item} {o i : Nat}

/-- What recognition goes by. -/
abbrev Grammar.recognizer (g : Grammar) (lex : Lexicon) : Recognizer := ⟨g, lex, g.nullable⟩

/-- Where the reserved symbol is not mentioned, a symbol that is completed where an item waits for
it has been expanded, and what completes it has one of its rules. -/
theorem Recognizer.Reaches.rule_of_awaited {r : Recognizer} (hg : r.grammar.Unmarked)
    (h : r.Reaches tokens it o i) {done : Item} {k j : Nat} (hs : it.next? = some done.lhs)
    (hd : r.Reaches tokens done k j) : done.rule ∈ r.grammar.rules ∧ r.Expands done.lhs := by
  rcases hd.rule_entered with e | hentered
  · exact absurd (congrArg Rule.lhs e) (hg.next?_ne h.rule_mem hs)
  · exact hentered

/-- Before the dot of an item that is reached where it starts stand nullable symbols. -/
theorem Recognizer.Reaches.nullable_before (hg : g.Unmarked)
    (h : (g.recognizer lex).Reaches tokens it o i) (hoi : o = i) :
    ∀ s ∈ it.rule.rhs.take it.dot, s ∈ g.nullable := by
  have hpassed : ∀ {it it' : Item} {s : Symbol}, it.next? = some s → it.advance = .ok it' →
      (∀ t ∈ it.rule.rhs.take it.dot, t ∈ g.nullable) → s ∈ g.nullable →
      ∀ t ∈ it'.rule.rhs.take it'.dot, t ∈ g.nullable := by
    intro it it' s hs ha hbefore hnull t ht
    rw [Item.take_dot_of_advance hs ha] at ht
    rcases List.mem_append.mp ht with ht | ht
    · exact hbefore t ht
    · rwa [List.mem_singleton.mp ht]
  induction h with
  | start | predict => simp [Item.atStart]
  | skip _ hs _ hn ha ih => exact hpassed hs ha (ih hoi) hn
  | scan h _ _ _ _ _ _ =>
    have := h.origin_le
    omega
  | @complete it it' done o k i h hs ha hd hc ih₁ ih₂ =>
    have h₁ := h.origin_le
    have h₂ := hd.origin_le
    obtain ⟨rfl, rfl⟩ : o = k ∧ k = i := by omega
    have hrhs := ih₂ rfl
    rw [Item.take_dot_of_isComplete hc] at hrhs
    exact hpassed hs ha (ih₁ rfl) (g.closes_nullable _ (h.rule_of_awaited hg hs hd).1 hrhs)

/-- **What is complete where it starts can be skipped**, by the nullable symbols of the grammar. -/
theorem Grammar.recognizer_skips (hg : g.Unmarked) (lex : Lexicon) (tokens : List String) :
    (g.recognizer lex).Skips tokens := by
  intro it done o i h hs hd hc
  obtain ⟨hr, hx⟩ := h.rule_of_awaited hg hs hd
  have hrhs := hd.nullable_before hg rfl
  rw [Item.take_dot_of_isComplete hc] at hrhs
  exact ⟨hx, g.closes_nullable _ hr hrhs⟩

end

end Parsing
