/-
# Tables and their grammars

A grammar in groups has a table (`Grammar.table`): its left-hand sides in order, and a map that has
the rules of each. An edit of this table comes to the table of the edited grammar
(`RuleTable.next_table`), for putting in a rule does the same to the two (`RuleTable.run_add`): a
new left-hand side goes behind the others and gets its place in the map in one operation, and no
place in the map is without a rule afterwards. The table without rules is that of the grammar
without rules. So whatever edits are made, the order and the map are in step, and what is known of
edited grammars can be read from the table.

Key definitions: `Grammar.table`.
Key theorems: `RuleTable.run_add`, `RuleTable.next_table`, `RuleTable.foldl_next_table`,
`RuleTable.ofRules_eq`, `RuleTable.table_keeps`.
-/
import Parsing.Proofs.Grammar.Order

namespace Parsing

/-- The table of a grammar. -/
def Grammar.table (g : Grammar) : RuleTable where
  start := g.start
  startRule := g.startRule
  rules := (g.nonterminals.map fun s => (⟨s, g.rulesFor s⟩ : Σ _ : Symbol, List Rule)).toFinmap
  order := g.nonterminals

namespace RuleTable

@[ext] theorem ext {t t' : RuleTable} (hs : t.start = t'.start) (hr : t.startRule = t'.startRule)
    (hm : ∀ s, t.rules.lookup s = t'.rules.lookup s) (ho : t.order = t'.order) : t = t' := by
  cases t
  cases t'
  cases hs
  cases hr
  cases ho
  cases Finmap.ext_lookup hm
  rfl

variable {g : Grammar} {s : Symbol} {r : Rule}

/-! ### Reading a table -/

theorem lookup_table (g : Grammar) (s : Symbol) :
    g.table.rules.lookup s = if s ∈ g.nonterminals then some (g.rulesFor s) else none := by
  unfold Grammar.table
  rw [Finmap.dlookup_list_toFinmap]
  generalize g.nonterminals = order
  induction order with
  | nil => rfl
  | cons lhs order ih =>
    rw [List.map_cons]
    by_cases hs : s = lhs
    · subst hs
      simp
    · rw [List.dlookup_cons_ne _ _ hs, ih]
      simp [hs]

theorem mem_table : s ∈ g.table.rules ↔ s ∈ g.nonterminals := by
  rw [← Finmap.lookup_isSome, lookup_table]
  by_cases hs : s ∈ g.nonterminals <;> simp [hs]

theorem isNonterminal_table (g : Grammar) (s : Symbol) :
    g.table.isNonterminal s = g.isNonterminal s := by
  simp [isNonterminal, Grammar.isNonterminal, mem_table]

theorem rulesFor_table (g : Grammar) (s : Symbol) : g.table.rulesFor s = g.rulesFor s := by
  rw [rulesFor, lookup_table]
  by_cases hs : s ∈ g.nonterminals
  · rw [if_pos hs]
    rfl
  · rw [if_neg hs, not_not.mp (mt Grammar.rulesFor_ne_nil_iff.mp hs)]
    rfl

/-- **The map has a place for each left-hand side**, so all rules are found. -/
theorem allRules?_table (g : Grammar) : g.table.allRules? = some g.rules := by
  have hfound : ∀ order ⊆ g.nonterminals,
      order.mapM (fun lhs => g.table.rules.lookup lhs) = some (order.map g.rulesFor) := by
    intro order hsub
    induction order with
    | nil => rfl
    | cons lhs order ih =>
      obtain ⟨hlhs, horder⟩ := List.cons_subset.mp hsub
      rw [List.mapM_cons, lookup_table, if_pos hlhs, ih horder]
      rfl
  have horder : g.table.order = g.nonterminals := rfl
  rw [allRules?, horder, hfound _ (List.Subset.refl _), ← g.flatMap_rulesFor, List.flatMap]
  rfl

/-! ### Edits of a table -/

theorem run_add_eq (r : Rule) (t : RuleTable) : run (add r) t =
    (decide (r ∉ t.rulesFor r.lhs),
      { t with
        order := if r.lhs ∈ t.rules then t.order else t.order ++ [r.lhs]
        rules := t.rules.insert r.lhs
          (if r ∈ t.rulesFor r.lhs then t.rulesFor r.lhs else t.rulesFor r.lhs ++ [r]) }) := by
  unfold run add rulesFor
  by_cases hlhs : r.lhs ∈ t.rules
  · by_cases hr : r ∈ (t.rules.lookup r.lhs).getD []
    · simp [hlhs, hr]
    · simp [hlhs, hr]
  · have hnone : t.rules.lookup r.lhs = none := Finmap.lookup_eq_none.mpr hlhs
    simp [hlhs, hnone]

/-- **Putting in a rule does the same to a table as to its grammar.** -/
theorem run_add (g : Grammar) (r : Rule) :
    run (add r) g.table = ((g.add r).1, (g.add r).2.table) := by
  have hmem : r ∈ g.rulesFor r.lhs ↔ r ∈ g.rules := by simp [Grammar.mem_rulesFor]
  rw [run_add_eq, g.add_eq, rulesFor_table, decide_not, decide_not, decide_eq_decide.mpr hmem]
  refine Prod.ext rfl (ext rfl rfl (fun s => ?_) ?_)
  · rw [lookup_table, g.rulesFor_insert]
    by_cases hs : s = r.lhs
    · subst hs
      rw [Finmap.lookup_insert, if_pos (Grammar.mem_nonterminals_insert.mpr (.inr rfl))]
      by_cases hr : r ∈ g.rulesFor r.lhs
      · simp [hr]
      · simp [hr]
    · have hmem : s ∈ (g.insert r).nonterminals ↔ s ∈ g.nonterminals := by
        simp [Grammar.mem_nonterminals_insert, hs]
      have hold : ¬ (r.lhs = s ∧ r ∉ g.rulesFor s) := fun h => hs h.1.symm
      rw [Finmap.lookup_insert_of_ne _ hs, lookup_table, if_neg hold]
      simp only [hmem]
  · simp only [mem_table]
    exact (g.nonterminals_insert r).symm

theorem run_bind {α β : Type} (op : Op α) (k : α → Op β) (t : RuleTable) :
    run (op >>= k) t = run (k (run op t).1) (run op t).2 := rfl

theorem run_discard (op : Op Bool) (t : RuleTable) : run (discard op) t = ((), (run op t).2) := rfl

theorem run_extend (g : Grammar) (rs : List Rule) :
    run (extend rs) g.table = ((), (g.extend rs).table) := by
  induction rs generalizing g with
  | nil => rfl
  | cons r rs ih =>
    have hcons : extend (r :: rs) = discard (add r) >>= fun _ => extend rs := rfl
    rw [hcons, run_bind, run_discard, run_add]
    exact ih (g.insert r)

/-- **An edit of the table comes to the table of the edited grammar.** -/
theorem next_table (g : Grammar) (e : Grammar.Edit) : g.table.next e = (g.edit e).table := by
  cases e with
  | add r =>
    rw [next, edit, run_discard, run_add]
    rfl
  | extend rs =>
    rw [next, edit, run_extend]
    rfl
  | withStart start => rfl

theorem foldl_next_table (g : Grammar) (edits : List Grammar.Edit) :
    edits.foldl next g.table = (edits.foldl Grammar.edit g).table := by
  induction edits generalizing g with
  | nil => rfl
  | cons e edits ih => rw [List.foldl_cons, List.foldl_cons, next_table, ih]

theorem table_empty (start : Symbol) : (Grammar.empty start).table = empty start := rfl

theorem ofRules_eq (start : Symbol) (rs : List Rule) :
    ofRules start rs = (Grammar.ofRules start rs).table := by
  rw [ofRules, ← table_empty, run_extend]
  rfl

/-- **Tables keep grammars.** After any edits of any grammar's table, the left-hand sides stand in
order of first definition, each once. They are the nonterminals: the symbols that the map has a
place for, and those that have rules, which stand in the order in which they were first put in, each
once. The rule above the start symbol leads to the start symbol that was set last. All rules are
found; one more rule is put in where it is none of them, and nowhere else; and put in one after the
other, they give the table back. A grammar in groups that is edited in the same way has this table,
answers the same, and is given back by its rules too. -/
theorem table_keeps (g : Grammar) (edits : List Grammar.Edit) :
    let t := edits.foldl next g.table
    let g' := edits.foldl Grammar.edit g
    let added := edits.flatMap Grammar.Edit.rules
    t = g'.table ∧
    t.order = (g.nonterminals ++ added.map (·.lhs)).eraseDups ∧
    t.order.Nodup ∧
    (∀ s, t.isNonterminal s = true ↔ s ∈ t.order) ∧
    (∀ s, t.rulesFor s ≠ [] ↔ s ∈ t.order) ∧
    (∀ s, t.rulesFor s = (g.rulesFor s ++ added.filter (·.lhs = s)).eraseDups) ∧
    t.start = (edits.filterMap Grammar.Edit.start?).getLast?.getD g.start ∧
    t.startRule = ⟨Grammar.startMark, [t.start]⟩ ∧
    t.allRules? = some g'.rules ∧
    (∀ r, (run (add r) t).1 = true ↔ r ∉ g'.rules) ∧
    (∀ r, run (add r) t = ((g'.add r).1, (g'.add r).2.table)) ∧
    ofRules t.start g'.rules = t ∧
    (∀ s, g'.isNonterminal s = t.isNonterminal s ∧ g'.rulesFor s = t.rulesFor s) ∧
    Grammar.ofRules g'.start g'.rules = g' := by
  intro t g' added
  have ht : t = g'.table := foldl_next_table g edits
  have hg' : g' = (g.extend added).withStart
      ((edits.filterMap Grammar.Edit.start?).getLast?.getD g.start) := g.foldl_edit edits
  have horder : t.order = g'.nonterminals := congrArg order ht
  have hfor : ∀ s, t.rulesFor s = g'.rulesFor s := fun s => by rw [ht, rulesFor_table]
  refine ⟨ht, ?_, ?_, fun s => ?_, fun s => ?_, fun s => ?_, ?_, ?_, ?_, fun r => ?_, fun r => ?_,
    ?_, fun s => ⟨?_, (hfor s).symm⟩, g'.ofRules_rules⟩
  · rw [horder, hg']
    exact g.nonterminals_extend added
  · rw [horder]
    exact g'.nodup_nonterminals
  · rw [horder, ht, isNonterminal_table, Grammar.isNonterminal, decide_eq_true_eq]
  · rw [horder, hfor]
    exact Grammar.rulesFor_ne_nil_iff
  · rw [hfor, hg']
    exact g.rulesFor_extend added s
  · rw [ht, hg']
    rfl
  · rw [ht]
    rfl
  · rw [ht, allRules?_table]
  · rw [ht, run_add, g'.add_eq, decide_eq_true_eq]
  · rw [ht, run_add]
  · rw [ht, ofRules_eq]
    exact congrArg Grammar.table g'.ofRules_rules
  · rw [ht, isNonterminal_table]

end RuleTable

end Parsing
