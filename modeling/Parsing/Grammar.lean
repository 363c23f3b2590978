/-
# Grammars

A grammar is a start symbol and its rules. The rules for one left-hand side are
kept together as a group of distinct right-hand sides, and the groups stand in
the order in which their left-hand sides were first defined, so two grammars
with the same start symbol, the same rules and the same order of definition are
equal.

Key definitions: `RuleGroup`, `Grammar`, `Grammar.insert`, `Grammar.ofRules`,
`Grammar.rulesFor`, `Grammar.startRule`, `Grammar.text`.
Key theorems: `RuleGroup.map_lhs_insert`, `Grammar.mem_rulesFor`, `Grammar.mem_rules_ofRules`.
-/
import Parsing.Rule

namespace Parsing

/-- The rules for one left-hand side: at least one right-hand side, none twice. -/
structure RuleGroup where
  lhs : Symbol
  bodies : List (List Symbol)
  inhabited : bodies ≠ []
  distinct : bodies.Nodup
deriving DecidableEq

namespace RuleGroup

/-- The rules of the group, in order of definition. -/
def rules (grp : RuleGroup) : List Rule := grp.bodies.map fun rhs => ⟨grp.lhs, rhs⟩

/-- The group of a single rule. -/
def single (r : Rule) : RuleGroup := ⟨r.lhs, [r.rhs], by simp, by simp⟩

/-- The group with one more right-hand side, unless it has it already. -/
def add (grp : RuleGroup) (rhs : List Symbol) : RuleGroup :=
  if h : rhs ∈ grp.bodies then grp
  else ⟨grp.lhs, grp.bodies ++ [rhs], by simp, by
    have := grp.distinct
    refine List.nodup_append.mpr ⟨this, by simp, ?_⟩
    intro a ha b hb
    simp only [List.mem_singleton] at hb
    subst hb
    exact fun e => h (e ▸ ha)⟩

@[simp] theorem lhs_add (grp : RuleGroup) (rhs : List Symbol) : (grp.add rhs).lhs = grp.lhs := by
  unfold add; split <;> rfl

theorem mem_bodies_add {grp : RuleGroup} {rhs b : List Symbol} :
    b ∈ (grp.add rhs).bodies ↔ b ∈ grp.bodies ∨ b = rhs := by
  unfold add
  split
  · next h => exact ⟨.inl, fun hb => hb.elim id fun e => e ▸ h⟩
  · simp

/-- Puts a rule into the group of its left-hand side, or into a new last group. -/
def insert (r : Rule) : List RuleGroup → List RuleGroup
  | [] => [single r]
  | grp :: rest => if grp.lhs = r.lhs then grp.add r.rhs :: rest else grp :: insert r rest

/-- A new left-hand side comes last, a known one stays where it is. -/
theorem map_lhs_insert (r : Rule) (grps : List RuleGroup) :
    (insert r grps).map (·.lhs) =
      if r.lhs ∈ grps.map (·.lhs) then grps.map (·.lhs) else grps.map (·.lhs) ++ [r.lhs] := by
  induction grps with
  | nil => simp [insert, single]
  | cons grp rest ih =>
    by_cases h : grp.lhs = r.lhs
    · simp [insert, h]
    · have h' : ¬ r.lhs = grp.lhs := fun e => h e.symm
      simp only [insert, h, if_false, List.map_cons, ih, List.mem_cons, h', false_or]
      split <;> simp

theorem nodup_lhs_insert {r : Rule} {grps : List RuleGroup} (h : (grps.map (·.lhs)).Nodup) :
    ((insert r grps).map (·.lhs)).Nodup := by
  rw [map_lhs_insert]
  split
  · exact h
  · next hr =>
    refine List.nodup_append.mpr ⟨h, by simp, ?_⟩
    intro a ha b hb
    simp only [List.mem_singleton] at hb
    subst hb
    exact fun e => hr (e ▸ ha)

theorem mem_rules_add {grp : RuleGroup} {rhs : List Symbol} {r : Rule} :
    r ∈ (grp.add rhs).rules ↔ r ∈ grp.rules ∨ r = ⟨grp.lhs, rhs⟩ := by
  simp only [rules, List.mem_map, mem_bodies_add, lhs_add]
  constructor
  · rintro ⟨b, hb | rfl, rfl⟩
    · exact .inl ⟨b, hb, rfl⟩
    · exact .inr rfl
  · rintro (⟨b, hb, rfl⟩ | rfl)
    · exact ⟨b, .inl hb, rfl⟩
    · exact ⟨rhs, .inr rfl, rfl⟩

theorem mem_rules_insert {r r' : Rule} (grps : List RuleGroup) :
    r' ∈ (insert r grps).flatMap (·.rules) ↔ r' ∈ grps.flatMap (·.rules) ∨ r' = r := by
  induction grps with
  | nil => simp [insert, single, rules]
  | cons grp rest ih =>
    unfold insert
    by_cases h : grp.lhs = r.lhs
    · rw [if_pos h, List.flatMap_cons, List.flatMap_cons, List.mem_append, List.mem_append,
        mem_rules_add, h]
      exact or_right_comm
    · rw [if_neg h, List.flatMap_cons, List.flatMap_cons, List.mem_append, List.mem_append, ih,
        or_assoc]

/-- The alternatives on one line, as in `NP -> Det N | N`. -/
def text (grp : RuleGroup) : String :=
  grp.lhs ++ " ->" ++
    " |".intercalate (grp.bodies.map fun rhs => if rhs = [] then "" else " " ++ Symbol.row rhs)

end RuleGroup

/-- A start symbol and groups of rules, one group for each left-hand side. -/
structure Grammar where
  start : Symbol
  groups : List RuleGroup
  distinct : (groups.map (·.lhs)).Nodup
deriving DecidableEq

namespace Grammar

/-- The start symbol of grammars that name none. -/
def defaultStart : Symbol := "S"

/-- The left-hand side of the rule that stands above the start symbol. -/
def startMark : Symbol := "⟨START⟩"

/-- The grammar without rules. -/
def empty (start : Symbol) : Grammar := ⟨start, [], by simp⟩

/-- The grammar with another start symbol. -/
def withStart (g : Grammar) (start : Symbol) : Grammar := ⟨start, g.groups, g.distinct⟩

/-- The grammar with one more rule. A rule that it has already changes nothing. -/
def insert (g : Grammar) (r : Rule) : Grammar :=
  ⟨g.start, RuleGroup.insert r g.groups, RuleGroup.nodup_lhs_insert g.distinct⟩

/-- The grammar with one more rule, and whether it changed. -/
def add (g : Grammar) (r : Rule) : Bool × Grammar :=
  let g' := g.insert r
  (decide (g' ≠ g), g')

/-- The grammar with more rules, put in one after the other. -/
def extend (g : Grammar) (rs : List Rule) : Grammar := rs.foldl insert g

/-- The grammar of the given rules. -/
def ofRules (start : Symbol) (rs : List Rule) : Grammar := (empty start).extend rs

/-- The left-hand sides, in order of first definition. -/
def nonterminals (g : Grammar) : List Symbol := g.groups.map (·.lhs)

/-- All rules, group by group. -/
def rules (g : Grammar) : List Rule := g.groups.flatMap (·.rules)

/-- The rules with `s` on the left, in order of definition; none when `s` is no nonterminal. -/
def rulesFor (g : Grammar) (s : Symbol) : List Rule :=
  (g.groups.filter fun grp => grp.lhs = s).flatMap (·.rules)

/-- Whether `s` has rules. -/
def isNonterminal (g : Grammar) (s : Symbol) : Bool := decide (s ∈ g.nonterminals)

/-- The symbols of right-hand sides that have no rules, each once. -/
def terminals (g : Grammar) : List Symbol :=
  ((g.rules.flatMap (·.rhs)).filter fun s => !g.isNonterminal s).eraseDups

/-- The rule above the start symbol, with which every parse begins. -/
def startRule (g : Grammar) : Rule := ⟨startMark, [g.start]⟩

/-- How many items the rules and the start rule have. -/
def itemCount (g : Grammar) : Nat :=
  (g.startRule :: g.rules).foldr (fun r n => r.rhs.length + 1 + n) 0

/-- One line for each group. -/
def text (g : Grammar) : String := String.join (g.groups.map fun grp => grp.text ++ "\n")

theorem mem_rules {g : Grammar} {r : Rule} :
    r ∈ g.rules ↔ ∃ grp ∈ g.groups, grp.lhs = r.lhs ∧ r.rhs ∈ grp.bodies := by
  simp only [rules, List.mem_flatMap, RuleGroup.rules, List.mem_map]
  constructor
  · rintro ⟨grp, hg, b, hb, rfl⟩
    exact ⟨grp, hg, rfl, hb⟩
  · rintro ⟨grp, hg, hl, hb⟩
    exact ⟨grp, hg, r.rhs, hb, by rw [hl]⟩

theorem mem_rulesFor {g : Grammar} {s : Symbol} {r : Rule} :
    r ∈ g.rulesFor s ↔ r ∈ g.rules ∧ r.lhs = s := by
  simp only [rulesFor, rules, List.mem_flatMap, List.mem_filter, RuleGroup.rules, List.mem_map,
    decide_eq_true_eq]
  constructor
  · rintro ⟨grp, ⟨hg, hl⟩, b, hb, rfl⟩
    exact ⟨⟨grp, hg, b, hb, rfl⟩, hl⟩
  · rintro ⟨⟨grp, hg, b, hb, rfl⟩, hl⟩
    exact ⟨grp, ⟨hg, hl⟩, b, hb, rfl⟩

theorem mem_rules_insert {g : Grammar} {r r' : Rule} :
    r' ∈ (g.insert r).rules ↔ r' ∈ g.rules ∨ r' = r := RuleGroup.mem_rules_insert g.groups

theorem mem_rules_extend {g : Grammar} {rs : List Rule} {r : Rule} :
    r ∈ (g.extend rs).rules ↔ r ∈ g.rules ∨ r ∈ rs := by
  induction rs generalizing g with
  | nil => simp [extend]
  | cons r' rs ih =>
    show r ∈ ((g.insert r').extend rs).rules ↔ _
    rw [ih, mem_rules_insert, List.mem_cons, or_assoc]

theorem mem_rules_ofRules {start : Symbol} {rs : List Rule} {r : Rule} :
    r ∈ (ofRules start rs).rules ↔ r ∈ rs := by
  rw [ofRules, mem_rules_extend]
  simp [empty, rules]

@[simp] theorem start_insert (g : Grammar) (r : Rule) : (g.insert r).start = g.start := rfl

@[simp] theorem start_extend (g : Grammar) (rs : List Rule) : (g.extend rs).start = g.start := by
  induction rs generalizing g with
  | nil => rfl
  | cons r rs ih => exact ih (g.insert r)

@[simp] theorem startRule_insert (g : Grammar) (r : Rule) :
    (g.insert r).startRule = g.startRule := rfl

end Grammar

end Parsing
