/-
# Grammars from their rules

The rules of a grammar, put in one after the other, give the grammar back. They come group by
group, so the first rule of a group opens a new last group and the others join it; none is
refused, since a group holds no right-hand side twice and no other group has its left-hand side.

Key theorems: `RuleGroup.foldl_insert_rules`, `Grammar.ofRules_rules`.
-/
import Parsing.Grammar

namespace Parsing

namespace RuleGroup

@[ext] theorem ext {a b : RuleGroup} (hl : a.lhs = b.lhs) (hb : a.bodies = b.bodies) : a = b := by
  cases a
  cases b
  cases hl
  cases hb
  rfl

variable {grps : List RuleGroup} {grp : RuleGroup} {r : Rule}

/-- A left-hand side without a group gets a new last one. -/
theorem insert_new (h : r.lhs ∉ grps.map (·.lhs)) : insert r grps = grps ++ [single r] := by
  induction grps with
  | nil => rfl
  | cons other rest ih =>
    simp only [List.map_cons, List.mem_cons, not_or] at h
    rw [insert, if_neg (Ne.symm h.1), ih h.2]
    rfl

/-- A rule for the left-hand side of the last group joins that group. -/
theorem insert_last (h : grp.lhs ∉ grps.map (·.lhs)) (hr : r.lhs = grp.lhs) :
    insert r (grps ++ [grp]) = grps ++ [grp.add r.rhs] := by
  induction grps with
  | nil => simp [insert, hr]
  | cons other rest ih =>
    simp only [List.map_cons, List.mem_cons, not_or] at h
    rw [List.cons_append, insert, if_neg fun e => h.1 (hr.symm.trans e.symm), ih h.2]
    rfl

theorem bodies_add {rhs : List Symbol} (h : rhs ∉ grp.bodies) :
    (grp.add rhs).bodies = grp.bodies ++ [rhs] := by
  unfold add
  rw [dif_neg h]

/-- Right-hand sides that the last group does not have come behind those that it has. -/
theorem foldl_insert_last (bodies : List (List Symbol)) {whole : RuleGroup}
    (h : grp.lhs ∉ grps.map (·.lhs)) (hl : whole.lhs = grp.lhs)
    (hb : whole.bodies = grp.bodies ++ bodies) :
    (bodies.map fun rhs => (⟨grp.lhs, rhs⟩ : Rule)).foldl (fun grps r => insert r grps)
      (grps ++ [grp]) = grps ++ [whole] := by
  induction bodies generalizing grp with
  | nil => rw [ext hl (hb.trans (List.append_nil _))]; rfl
  | cons rhs bodies ih =>
    have hnew : rhs ∉ grp.bodies := by
      have hd := whole.distinct
      rw [hb] at hd
      exact fun hmem => (List.nodup_append.mp hd).2.2 rhs hmem rhs List.mem_cons_self rfl
    rw [List.map_cons, List.foldl_cons, insert_last h rfl]
    have hnext := @ih (grp.add rhs) (by rwa [lhs_add]) (by rw [hl, lhs_add])
      (by rw [hb, bodies_add hnew, List.append_assoc]; rfl)
    rwa [lhs_add] at hnext

/-- **The rules of a group make up the group.** -/
theorem foldl_insert_rules (h : grp.lhs ∉ grps.map (·.lhs)) :
    grp.rules.foldl (fun grps r => insert r grps) grps = grps ++ [grp] := by
  obtain ⟨first, others, hb⟩ := List.exists_cons_of_ne_nil grp.inhabited
  rw [rules, hb, List.map_cons, List.foldl_cons, insert_new h]
  have hnew : (single ⟨grp.lhs, first⟩).lhs ∉ grps.map (·.lhs) := h
  exact foldl_insert_last others hnew rfl hb

end RuleGroup

namespace Grammar

@[ext] theorem ext {a b : Grammar} (hs : a.start = b.start) (hg : a.groups = b.groups) :
    a = b := by
  cases a
  cases b
  cases hs
  cases hg
  rfl

theorem groups_extend (g : Grammar) (rs : List Rule) :
    (g.extend rs).groups = rs.foldl (fun grps r => RuleGroup.insert r grps) g.groups := by
  induction rs generalizing g with
  | nil => rfl
  | cons r rs ih => exact ih (g.insert r)

theorem foldl_insert_groups (grps pre : List RuleGroup)
    (h : ((pre ++ grps).map (·.lhs)).Nodup) :
    (grps.flatMap (·.rules)).foldl (fun grps r => RuleGroup.insert r grps) pre = pre ++ grps := by
  induction grps generalizing pre with
  | nil => simp
  | cons grp grps ih =>
    have hnew : grp.lhs ∉ pre.map (·.lhs) := by
      rw [List.map_append, List.map_cons] at h
      exact fun hmem => (List.nodup_append.mp h).2.2 _ hmem _ List.mem_cons_self rfl
    rw [List.flatMap_cons, List.foldl_append, RuleGroup.foldl_insert_rules hnew,
      ih (pre ++ [grp]) (by simpa using h)]
    simp

/-- **A grammar is rebuilt from its rules.** -/
theorem ofRules_rules (g : Grammar) : ofRules g.start g.rules = g := by
  refine ext (start_extend _ _) ?_
  rw [ofRules, groups_extend]
  exact foldl_insert_groups g.groups [] g.distinct

end Grammar

end Parsing
