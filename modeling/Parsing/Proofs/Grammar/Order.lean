/-
# Grammars after edits

However rules are put in, a grammar has its left-hand sides in order of first definition, each once,
and for each of them its rules in the order in which they were first put in, each once
(`Grammar.nonterminals_extend`, `Grammar.rulesFor_extend`). One rule is put behind those of its
left-hand side, unless it is there, and nothing else moves; the rest is induction on the rules.
Edits come to the rules that they put in, one after the other, and to the start symbol that was
set last (`Grammar.foldl_edit`).

Key theorems: `Grammar.nonterminals_insert`, `Grammar.rulesFor_insert`,
`Grammar.nonterminals_extend`, `Grammar.rulesFor_extend`, `Grammar.foldl_edit`.
-/
import Mathlib.Data.List.Nodup
import Parsing.Grammar.Table
import Parsing.Proofs.Rebuild
import Parsing.Proofs.Rewriting

namespace Parsing

/-! ### First occurrences -/

section

variable {α : Type} [DecidableEq α] {l : List α} {a : α}

theorem eraseDups_of_nodup (h : l.Nodup) : l.eraseDups = l := by
  induction l with
  | nil => rfl
  | cons a l ih =>
    obtain ⟨ha, hl⟩ := List.nodup_cons.mp h
    have hfilter : l.filter (fun b => !b == a) = l :=
      List.filter_eq_self.mpr fun b hb => by simpa using fun e : b = a => ha (e ▸ hb)
    rw [List.eraseDups_cons, hfilter, ih hl]

theorem eraseDups_append_of_mem (h : a ∈ l) (rest : List α) :
    (l ++ a :: rest).eraseDups = (l ++ rest).eraseDups := by
  simp [List.eraseDups_append, List.removeAll, h]

end

/-! ### The rules of a left-hand side -/

namespace RuleGroup

variable {grps : List RuleGroup} {grp : RuleGroup} {r : Rule} {s : Symbol}

/-- The rules for `s` that groups have. -/
def rulesFor (grps : List RuleGroup) (s : Symbol) : List Rule :=
  (grps.filter fun grp => grp.lhs = s).flatMap (·.rules)

theorem rulesFor_cons (grp : RuleGroup) (grps : List RuleGroup) (s : Symbol) :
    rulesFor (grp :: grps) s = (if grp.lhs = s then grp.rules else []) ++ rulesFor grps s := by
  unfold rulesFor
  by_cases h : grp.lhs = s
  · simp [h]
  · simp [h]

theorem rulesFor_eq_nil (h : s ∉ grps.map (·.lhs)) : rulesFor grps s = [] := by
  unfold rulesFor
  rw [List.filter_eq_nil_iff.mpr fun grp hgrp => ?_, List.flatMap_nil]
  simpa using fun e : grp.lhs = s => h (e ▸ List.mem_map_of_mem hgrp)

theorem nodup_rules (grp : RuleGroup) : grp.rules.Nodup :=
  grp.distinct.map fun _ _ e => congrArg Rule.rhs e

theorem rulesFor_lhs (h : (grps.map (·.lhs)).Nodup) (hgrp : grp ∈ grps) :
    rulesFor grps grp.lhs = grp.rules := by
  induction grps with
  | nil => cases hgrp
  | cons other grps ih =>
    obtain ⟨hnew, hrest⟩ := List.nodup_cons.mp h
    rw [rulesFor_cons]
    rcases List.mem_cons.mp hgrp with rfl | hgrp
    · rw [if_pos rfl, rulesFor_eq_nil hnew, List.append_nil]
    · have hmem : grp.lhs ∈ grps.map (·.lhs) := List.mem_map_of_mem hgrp
      have hne : other.lhs ≠ grp.lhs := fun e => hnew (by rwa [← e] at hmem)
      rw [if_neg hne, ih hrest hgrp]
      rfl

theorem nodup_rulesFor (s : Symbol) (h : (grps.map (·.lhs)).Nodup) : (rulesFor grps s).Nodup := by
  by_cases hs : s ∈ grps.map (·.lhs)
  · obtain ⟨grp, hgrp, rfl⟩ := List.mem_map.mp hs
    rw [rulesFor_lhs h hgrp]
    exact grp.nodup_rules
  · rw [rulesFor_eq_nil hs]
    exact List.nodup_nil

theorem mk_mem_rules {rhs : List Symbol} : ⟨grp.lhs, rhs⟩ ∈ grp.rules ↔ rhs ∈ grp.bodies := by
  simp [rules]

theorem rules_add (grp : RuleGroup) (rhs : List Symbol) : (grp.add rhs).rules =
    if ⟨grp.lhs, rhs⟩ ∈ grp.rules then grp.rules else grp.rules ++ [⟨grp.lhs, rhs⟩] := by
  by_cases h : rhs ∈ grp.bodies
  · rw [if_pos (mk_mem_rules.mpr h), add, dif_pos h]
  · rw [if_neg (mt mk_mem_rules.mp h), rules, lhs_add, bodies_add h, List.map_append]
    rfl

theorem rulesFor_insert (r : Rule) (s : Symbol) (h : (grps.map (·.lhs)).Nodup) :
    rulesFor (insert r grps) s =
      if r.lhs = s ∧ r ∉ rulesFor grps s then rulesFor grps s ++ [r] else rulesFor grps s := by
  induction grps with
  | nil =>
    by_cases hs : r.lhs = s
    · subst hs
      simp [insert, rulesFor, single, rules]
    · simp [insert, rulesFor, single, hs]
  | cons grp grps ih =>
    obtain ⟨hnew, hrest⟩ := List.nodup_cons.mp h
    unfold insert
    by_cases hr : grp.lhs = r.lhs
    · rw [if_pos hr, rulesFor_cons, rulesFor_cons, lhs_add, rules_add]
      by_cases hs : grp.lhs = s
      · subst hs
        have hmk : (⟨grp.lhs, r.rhs⟩ : Rule) = r := by rw [hr]
        rw [if_pos rfl, if_pos rfl, rulesFor_eq_nil hnew, hmk]
        by_cases hmem : r ∈ grp.rules
        · simp [hmem]
        · simp [hmem, hr]
      · simp [hs, ← hr]
    · rw [if_neg hr, rulesFor_cons, rulesFor_cons, ih hrest]
      by_cases hs : grp.lhs = s
      · have hrs : r.lhs ≠ s := fun e => hr (hs.trans e.symm)
        simp [hs, hrs]
      · simp [hs]

end RuleGroup

namespace Grammar

variable {g : Grammar} {s : Symbol} {r : Rule}

theorem nodup_nonterminals (g : Grammar) : g.nonterminals.Nodup := g.distinct

theorem nodup_rulesFor (g : Grammar) (s : Symbol) : (g.rulesFor s).Nodup :=
  RuleGroup.nodup_rulesFor s g.distinct

theorem rulesFor_ne_nil_iff : g.rulesFor s ≠ [] ↔ s ∈ g.nonterminals := by
  have hmem : s ∈ g.nonterminals ↔ ∃ r ∈ g.rules, r.lhs = s := by
    rw [← isNonterminal_iff, isNonterminal, decide_eq_true_eq]
  rw [hmem, ← List.isEmpty_eq_false_iff, List.isEmpty_eq_false_iff_exists_mem]
  simp [mem_rulesFor]

theorem flatMap_rulesFor (g : Grammar) : g.nonterminals.flatMap g.rulesFor = g.rules := by
  unfold nonterminals rules
  rw [List.flatMap_map]
  exact List.flatMap_congr fun grp hgrp => RuleGroup.rulesFor_lhs g.distinct hgrp

/-- The order of left-hand sides and the rules for each of them make up a grammar. -/
theorem ext_rulesFor {g' : Grammar} (hs : g.start = g'.start)
    (ho : g.nonterminals = g'.nonterminals) (hr : ∀ s, g.rulesFor s = g'.rulesFor s) : g = g' := by
  have hrules : g.rules = g'.rules := by
    rw [← flatMap_rulesFor, ← flatMap_rulesFor, ho, funext hr]
  rw [← g.ofRules_rules, ← g'.ofRules_rules, hs, hrules]

/-! ### One more rule -/

theorem nonterminals_insert (g : Grammar) (r : Rule) : (g.insert r).nonterminals =
    if r.lhs ∈ g.nonterminals then g.nonterminals else g.nonterminals ++ [r.lhs] :=
  RuleGroup.map_lhs_insert r g.groups

theorem mem_nonterminals_insert :
    s ∈ (g.insert r).nonterminals ↔ s ∈ g.nonterminals ∨ s = r.lhs := by
  rw [nonterminals_insert]
  by_cases hr : r.lhs ∈ g.nonterminals
  · rw [if_pos hr]
    exact ⟨.inl, fun h => h.elim id fun e => e ▸ hr⟩
  · simp [hr]

theorem rulesFor_insert (g : Grammar) (r : Rule) (s : Symbol) : (g.insert r).rulesFor s =
    if r.lhs = s ∧ r ∉ g.rulesFor s then g.rulesFor s ++ [r] else g.rulesFor s :=
  RuleGroup.rulesFor_insert r s g.distinct

theorem insert_eq_self_iff : g.insert r = g ↔ r ∈ g.rules := by
  constructor
  · intro h
    rw [← h]
    exact mem_rules_insert.mpr (.inr rfl)
  · intro h
    have hfor : r ∈ g.rulesFor r.lhs := mem_rulesFor.mpr ⟨h, rfl⟩
    have hlhs : r.lhs ∈ g.nonterminals := rulesFor_ne_nil_iff.mp (List.ne_nil_of_mem hfor)
    refine ext_rulesFor (start_insert g r) ?_ fun s => ?_
    · rw [nonterminals_insert, if_pos hlhs]
    · rw [rulesFor_insert, if_neg]
      rintro ⟨rfl, hnew⟩
      exact hnew hfor

theorem add_eq (g : Grammar) (r : Rule) : g.add r = (decide (r ∉ g.rules), g.insert r) := by
  have hne : g.insert r ≠ g ↔ r ∉ g.rules := not_congr insert_eq_self_iff
  simp only [add, hne]

/-! ### More rules -/

theorem extend_cons (g : Grammar) (r : Rule) (rs : List Rule) :
    g.extend (r :: rs) = (g.insert r).extend rs := rfl

theorem extend_append (g : Grammar) (rs rs' : List Rule) :
    g.extend (rs ++ rs') = (g.extend rs).extend rs' := List.foldl_append

/-- **Left-hand sides stand in order of first definition.** -/
theorem nonterminals_extend (g : Grammar) (rs : List Rule) :
    (g.extend rs).nonterminals = (g.nonterminals ++ rs.map (·.lhs)).eraseDups := by
  induction rs generalizing g with
  | nil => rw [List.map_nil, List.append_nil, eraseDups_of_nodup g.nodup_nonterminals]; rfl
  | cons r rs ih =>
    rw [extend_cons, ih, nonterminals_insert, List.map_cons]
    by_cases h : r.lhs ∈ g.nonterminals
    · rw [if_pos h, eraseDups_append_of_mem h]
    · rw [if_neg h, List.append_assoc]
      rfl

/-- **The rules of a left-hand side stand in the order in which they were first put in.** -/
theorem rulesFor_extend (g : Grammar) (rs : List Rule) (s : Symbol) :
    (g.extend rs).rulesFor s = (g.rulesFor s ++ rs.filter (·.lhs = s)).eraseDups := by
  induction rs generalizing g with
  | nil => rw [List.filter_nil, List.append_nil, eraseDups_of_nodup (g.nodup_rulesFor s)]; rfl
  | cons r rs ih =>
    rw [extend_cons, ih, rulesFor_insert]
    by_cases hs : r.lhs = s
    · have hfilter : (r :: rs).filter (·.lhs = s) = r :: rs.filter (·.lhs = s) :=
        List.filter_cons_of_pos (by simpa using hs)
      rw [hfilter]
      by_cases h : r ∈ g.rulesFor s
      · rw [if_neg fun hnew => hnew.2 h, eraseDups_append_of_mem h]
      · rw [if_pos ⟨hs, h⟩, List.append_assoc]
        rfl
    · have hfilter : (r :: rs).filter (·.lhs = s) = rs.filter (·.lhs = s) :=
        List.filter_cons_of_neg (by simpa using hs)
      rw [hfilter, if_neg fun hnew => hs hnew.1]

/-! ### Edits -/

theorem extend_withStart (g : Grammar) (start : Symbol) (rs : List Rule) :
    (g.withStart start).extend rs = (g.extend rs).withStart start := by
  refine ext (start_extend _ _) ?_
  rw [groups_extend]
  exact (groups_extend g rs).symm

/-- **Edits come to the rules that they put in and to the start symbol that was set last.** -/
theorem foldl_edit (g : Grammar) (edits : List Edit) :
    edits.foldl edit g = (g.extend (edits.flatMap Edit.rules)).withStart
      ((edits.filterMap Edit.start?).getLast?.getD g.start) := by
  induction edits generalizing g with
  | nil => rfl
  | cons e edits ih =>
    rw [List.foldl_cons, ih, List.flatMap_cons, extend_append]
    cases e with
    | add r => rfl
    | extend rs => rw [edit, start_extend]; rfl
    | withStart start =>
      have hstarts : (Edit.withStart start :: edits).filterMap Edit.start? =
          start :: edits.filterMap Edit.start? := rfl
      rw [hstarts, List.getLast?_cons, edit, extend_withStart]
      rfl

end Grammar

end Parsing
