/-
# How far a parse can grow

At every stage of a parse a column and its pool hold no more items than there are for each origin
up to the column's position, and no node of the forest ends behind the present position. The nodes
have distinct keys, and a key has one of finitely many labels: the empty text, a token, a left-hand
side, or a rule with a dot in it. So there are no more nodes than such keys over spans of the text.

Each step works on an entry of its column or passes a token, so the number of steps is bounded
by the sizes of the columns. A parse therefore ends, though the column grows while it is gone
through, and though rules may be left-recursive, cyclic or empty.

Key definitions: `Forest.EndsBy`, `Run.Ends`, `Grammar.items`, `Grammar.labels`, `Grammar.keys`.
Key theorems: `Run.Ends.visit`, `Run.Ends.shift`, `Stage.Reached.ends`, `Stage.Reached.steps_le`,
`Grammar.mem_keys`, `Grammar.parse_bounded`.
-/
import Mathlib.Algebra.BigOperators.Intervals
import Mathlib.Algebra.Order.BigOperators.Group.Finset
import Mathlib.Data.Finset.Prod
import Parsing.Proofs.Parse.Stages

namespace Parsing

/-! ### Where nodes end -/

namespace Forest

/-- Whether no node ends behind the position. -/
def EndsBy (f : Forest) (i : Nat) : Prop := ∀ n ∈ f.nodes, n.key.stop ≤ i

variable {f f' : Forest} {i j : Nat} {id : NodeId} {key : NodeKey}

theorem endsBy_empty (i : Nat) : Forest.empty.EndsBy i := by
  intro n hn
  cases hn

theorem EndsBy.mono (h : f.EndsBy i) (hij : i ≤ j) : f.EndsBy j :=
  fun n hn => Nat.le_trans (h n hn) hij

theorem EndsBy.ensure (h : f.EndsBy i) (hk : key.stop ≤ i) (hrun : f.ensure key = .ok (id, f')) :
    f'.EndsBy i := by
  unfold Forest.ensure at hrun
  split at hrun
  · split at hrun
    · obtain ⟨-, rfl⟩ := Prod.mk.inj (Except.ok.inj hrun)
      exact h
    · obtain ⟨-, rfl⟩ := Prod.mk.inj (Except.ok.inj hrun)
      intro n hn
      rcases List.mem_append.mp hn with hn | hn
      · exact h n hn
      · rw [List.mem_singleton.mp hn]
        exact hk
  · cases hrun

theorem EndsBy.addFamily (h : f.EndsBy i) {fam : Family} {b : Bool}
    (hrun : f.addFamily id fam = .ok (b, f')) : f'.EndsBy i := by
  unfold Forest.addFamily at hrun
  simp only [bind_eq_ok_iff] at hrun
  obtain ⟨node, -, right, -, left?, -, -, -, hrun⟩ := hrun
  split at hrun
  · obtain ⟨-, rfl⟩ := Prod.mk.inj (Except.ok.inj hrun)
    exact h
  · obtain ⟨-, rfl⟩ := Prod.mk.inj (Except.ok.inj hrun)
    intro n hn
    obtain ⟨k, hk⟩ := List.mem_iff_getElem?.mp hn
    have hk : (f.attach id fam).nodes[k]? = some n := hk
    obtain ⟨m, hm, hkey, -⟩ := getElem?_attach hk
    rw [hkey]
    exact h m (List.mem_of_getElem? hm)

theorem EndsBy.nodeFor (h : f.EndsBy i) {it : Item} {start : Nat} {left? : Option NodeId}
    {right : NodeId} (hrun : f.nodeFor it start i left? right = .ok (id, f')) : f'.EndsBy i := by
  unfold Forest.nodeFor at hrun
  split at hrun
  · obtain ⟨-, rfl⟩ := Prod.mk.inj (Except.ok.inj hrun)
    exact h
  · simp only [bind_eq_ok_iff] at hrun
    obtain ⟨⟨id₁, f₁⟩, hrun₁, ⟨b, f₂⟩, hrun₂, hrun⟩ := hrun
    obtain ⟨-, rfl⟩ := Prod.mk.inj (Except.ok.inj hrun)
    exact (h.ensure (Nat.le_refl i) hrun₁).addFamily hrun₂

theorem EndsBy.emptyNode (h : f.EndsBy i) {s : Symbol}
    (hrun : f.emptyNode s i = .ok (id, f')) : f'.EndsBy i := by
  unfold Forest.emptyNode at hrun
  simp only [bind_eq_ok_iff] at hrun
  obtain ⟨⟨id₁, f₁⟩, hrun₁, ⟨leaf, f₂⟩, hrun₂, ⟨b, f₃⟩, hrun₃, hrun⟩ := hrun
  obtain ⟨-, rfl⟩ := Prod.mk.inj (Except.ok.inj hrun)
  exact ((h.ensure (Nat.le_refl i) hrun₁).ensure (Nat.le_refl i) hrun₂).addFamily hrun₃

end Forest

namespace Run

/-- Whether the run is at the position and no node of its forest ends behind it. -/
structure Ends (i : Nat) (run : Run) : Prop where
  position : run.position = i
  forest : run.forest.EndsBy i

variable {g : Grammar} {tokens : List Symbol} {run run' : Run} {i : Nat} {e : Entry}

theorem ends_start (g : Grammar) (tokens : List Symbol) : (start g tokens).Ends 0 :=
  ⟨rfl, Forest.endsBy_empty 0⟩

theorem Ends.advance (h : run.Ends i) {right : NodeId} (hrun : run.advance e right = .ok run') :
    run'.Ends i := by
  obtain ⟨it, id, f, -, hnode, rfl⟩ := advance_eq_ok_iff.mp hrun
  rw [h.position] at hnode
  exact ⟨h.position, h.forest.nodeFor hnode⟩

theorem Ends.advanceAll {right : NodeId} : ∀ (es : List Entry) {run : Run}, run.Ends i →
    run.advanceAll es right = .ok run' → run'.Ends i
  | [], run, h, hrun => by
    obtain rfl := Except.ok.inj hrun
    exact h
  | e :: es, run, h, hrun => by
    obtain ⟨run₁, hrun₁, hrun⟩ := advanceAll_cons_eq_ok_iff.mp hrun
    exact (h.advance hrun₁).advanceAll es hrun

theorem Ends.predict (h : run.Ends i) (s : Symbol) : (run.predict g s).Ends i := by
  unfold Run.predict
  generalize hrs : g.rulesFor s = rs
  clear hrs
  have hnote : (run.note (.predicted s run.position)).Ends i := ⟨h.position, h.forest⟩
  generalize run.note (.predicted s run.position) = run₁ at hnote
  induction rs generalizing run₁ with
  | nil => exact hnote
  | cons r rs ih => exact ih _ ⟨hnote.position, hnote.forest⟩

theorem Ends.completedNode (h : run.Ends i) {cursor : Nat} {id : NodeId}
    (hrun : run.completedNode cursor e = .ok (id, run')) : run'.Ends i := by
  unfold Run.completedNode at hrun
  split at hrun
  · obtain ⟨-, rfl⟩ := Prod.mk.inj (Except.ok.inj hrun)
    exact h
  · rw [bind_eq_ok_iff] at hrun
    obtain ⟨⟨id₁, f⟩, hnode, hrun⟩ := hrun
    obtain ⟨-, rfl⟩ := Prod.mk.inj (Except.ok.inj hrun)
    rw [h.position] at hnode
    exact ⟨h.position, h.forest.emptyNode hnode⟩

theorem Ends.enlist (h : run.Ends i) (e : Entry) (id : NodeId) : (run.enlist e id).Ends i := by
  unfold Run.enlist
  split
  · exact ⟨h.position, h.forest⟩
  · exact h

theorem Ends.complete (h : run.Ends i) {cursor : Nat}
    (hrun : run.complete cursor e = .ok run') : run'.Ends i := by
  obtain ⟨id, run₁, _, c, hrun₁, rfl, -, hrun⟩ := complete_eq_ok_iff.mp hrun
  have h₁ := (h.completedNode hrun₁).enlist e id
  have h₂ : ((run₁.enlist e id).note
      (.completed e.item e.origin (run₁.enlist e id).position)).Ends i := ⟨h₁.position, h₁.forest⟩
  exact h₂.advanceAll _ hrun

theorem Ends.visit (h : run.Ends i) {cursor : Nat}
    (hrun : run.visit g cursor e = .ok run') : run'.Ends i := by
  unfold Run.visit at hrun
  split at hrun
  · exact h.complete hrun
  · next s _ =>
    have h₁ := h.predict (g := g) s
    simp only at hrun
    split at hrun
    · exact h₁.advance hrun
    · obtain rfl := Except.ok.inj hrun
      exact h₁

theorem Ends.shift (h : run.Ends i) {t : Symbol} {ahead : Option Symbol}
    (hrun : run.shift t ahead = .ok run') : run'.Ends (i + 1) := by
  have hpos : (run.stepped ahead).position = i + 1 := by rw [position_stepped, h.position]
  have hforest : run.forest.EndsBy (i + 1) := h.forest.mono (Nat.le_succ i)
  obtain ⟨-, rfl⟩ | ⟨-, leaf, f, hleaf, hrun⟩ := shift_eq_ok_iff.mp hrun
  · exact ⟨hpos, hforest⟩
  · have hf : f.EndsBy (i + 1) := hforest.ensure (by rw [h.position]) hleaf
    have h₁ : Ends (i + 1) { (run.stepped ahead).note
        (.scanned t run.position run.column.pool.length) with forest := f } := ⟨hpos, hf⟩
    exact h₁.advanceAll _ hrun

end Run

namespace Stage

variable {g : Grammar} {tokens : List Symbol} {k : Nat} {s : Stage}

/-- **No node ends behind the present position.** -/
theorem Reached.ends (h : Reached g tokens k s) : s.run.Ends s.run.position := by
  induction h with
  | first => exact Run.ends_start g tokens
  | step _ hs ih =>
    cases hs with
    | visit _ hrun =>
      have h := ih.visit hrun
      exact h.position.symm ▸ h
    | shift _ _ hrun =>
      have h := ih.shift hrun
      exact h.position.symm ▸ h

/-! ### How many steps there are -/

/-- The entries worked on so far are no more than the columns may hold. -/
theorem Reached.le_sum (h : Reached g tokens k s) :
    k ≤ ∑ i ∈ Finset.range s.run.position, (i + 1) * g.itemCount + s.run.position + s.cursor := by
  induction h with
  | first => exact Nat.zero_le _
  | step h hs ih =>
    cases hs with
    | visit he hrun =>
      obtain ⟨run, hrun', hgr, -⟩ := h.kept.visit he
      obtain rfl := Except.ok.inj (hrun.symm.trans hrun')
      show _ ≤ ∑ i ∈ Finset.range _, _ + _ + (_ + 1)
      rw [hgr.position]
      omega
    | shift hend ht hrun =>
      obtain ⟨run, hrun', hpos, -⟩ := h.kept.shift hend ht
      obtain rfl := Except.ok.inj (hrun.symm.trans hrun')
      have hcursor := Nat.le_trans h.kept.cursor_le (Run.length_entries_le h.kept.passed.sound)
      show _ ≤ ∑ i ∈ Finset.range _, _ + _ + 0
      rw [hpos, Finset.sum_range_succ]
      omega

/-- **A parse takes no more steps** than all columns together may hold items, and one for each
token. -/
theorem Reached.steps_le (h : Reached g tokens k s) :
    k ≤ ∑ i ∈ Finset.range (tokens.length + 1), (i + 1) * g.itemCount + tokens.length := by
  have hkept := h.kept
  have hcursor := Nat.le_trans hkept.cursor_le (Run.length_entries_le hkept.passed.sound)
  have hsum : ∑ i ∈ Finset.range (s.run.position + 1), (i + 1) * g.itemCount ≤
      ∑ i ∈ Finset.range (tokens.length + 1), (i + 1) * g.itemCount :=
    Finset.sum_le_sum_of_subset
      (Finset.range_subset_range.mpr (Nat.succ_le_succ hkept.position_le))
  rw [Finset.sum_range_succ] at hsum
  have hk := h.le_sum
  have hpos := hkept.position_le
  omega

end Stage

/-! ### Which keys there are -/

namespace Grammar

/-- The rules and the start rule, with a dot in each place. -/
def items (g : Grammar) : List Item :=
  g.augmented.flatMap fun r =>
    (List.finRange (r.rhs.length + 1)).map fun (d : Fin (r.rhs.length + 1)) =>
      ⟨r, d, Nat.le_of_lt_succ d.isLt⟩

theorem mem_items {g : Grammar} {it : Item} : it ∈ g.items ↔ it.rule ∈ g.augmented := by
  simp only [items, List.mem_flatMap, List.mem_map, List.mem_finRange, true_and]
  constructor
  · rintro ⟨r, hr, d, rfl⟩
    exact hr
  · intro hr
    exact ⟨it.rule, hr, ⟨it.dot, Nat.lt_succ_of_le it.dot_le⟩, rfl⟩

/-- The labels that nodes over the tokens may have. -/
def labels (g : Grammar) (tokens : List Symbol) : Finset Label :=
  (Label.epsilon :: ((tokens ++ g.augmented.map Rule.lhs).map Label.symbol ++
    g.items.map Label.item)).toFinset

theorem epsilon_mem_labels (g : Grammar) (tokens : List Symbol) : .epsilon ∈ g.labels tokens := by
  simp [labels]

theorem token_mem_labels (g : Grammar) {tokens : List Symbol} {t : Symbol} (ht : t ∈ tokens) :
    .symbol t ∈ g.labels tokens := by
  simp [labels, ht]

theorem lhs_mem_labels {g : Grammar} {r : Rule} (hr : r ∈ g.augmented) (tokens : List Symbol) :
    .symbol r.lhs ∈ g.labels tokens := by
  have : ∃ r' ∈ g.augmented, r'.lhs = r.lhs := ⟨r, hr, rfl⟩
  simp [labels, this]

theorem item_mem_labels {g : Grammar} {it : Item} (hr : it.rule ∈ g.augmented)
    (tokens : List Symbol) : .item it ∈ g.labels tokens := by
  simp [labels, mem_items, hr]

/-- The keys that nodes over the tokens may have. -/
def keys (g : Grammar) (tokens : List Symbol) : Finset NodeKey :=
  (((Finset.range (tokens.length + 1) ×ˢ Finset.range (tokens.length + 1)).filter
    fun p => p.1 ≤ p.2) ×ˢ g.labels tokens).image fun p => ⟨p.1.1, p.1.2, p.2⟩

theorem mem_keys {g : Grammar} {tokens : List Symbol} {key : NodeKey} :
    key ∈ g.keys tokens ↔
      key.start ≤ key.stop ∧ key.stop ≤ tokens.length ∧ key.label ∈ g.labels tokens := by
  simp only [keys, Finset.mem_image, Finset.mem_product, Finset.mem_filter, Finset.mem_range]
  constructor
  · rintro ⟨⟨⟨start, stop⟩, label⟩, ⟨⟨⟨-, hstop⟩, hle⟩, hlabel⟩, rfl⟩
    exact ⟨hle, Nat.le_of_lt_succ hstop, hlabel⟩
  · rintro ⟨hle, hstop, hlabel⟩
    have hstop : key.stop < tokens.length + 1 := Nat.lt_succ_of_le hstop
    have hstart : key.start < tokens.length + 1 := Nat.lt_of_le_of_lt hle hstop
    exact ⟨((key.start, key.stop), key.label), ⟨⟨⟨hstart, hstop⟩, hle⟩, hlabel⟩, rfl⟩

end Grammar

variable {g : Grammar} {tokens : List Symbol} {k : Nat} {s : Stage}

/-- Nodes with families have labels of the grammar. -/
theorem Grown.label_mem {key right : NodeKey} {left? : Option NodeKey}
    (h : Grown g tokens key left? right) : key.label ∈ g.labels tokens := by
  cases h with
  | empty hd _ => exact Grammar.lhs_mem_labels hd.rule_mem tokens
  | @move it it' o k i s h hs ha hx ho =>
    have hr : it'.rule ∈ g.augmented := (Item.advance_eq_ok_iff.mp ha).1 ▸ h.rule_mem
    show it'.label ∈ g.labels tokens
    by_cases hc : it'.isComplete = true
    · rw [Item.label_of_isComplete hc]
      exact Grammar.lhs_mem_labels hr tokens
    · rw [Item.label_of_dot_ne_one (Bool.not_eq_true _ ▸ hc) (ho.resolve_left hc)]
      exact Grammar.item_mem_labels hr tokens

/-- Nodes without families have the label of a token or of the empty text. -/
theorem Leaf.label_mem {key : NodeKey} (h : Leaf tokens key) (g : Grammar) :
    key.label ∈ g.labels tokens := by
  rcases h with ⟨i, rfl⟩ | ⟨i, a, ha, rfl⟩
  · exact g.epsilon_mem_labels tokens
  · exact g.token_mem_labels (List.mem_of_getElem? ha)

/-- **Every node of a stage has one of the keys.** -/
theorem Stage.Reached.mem_keys (h : Reached g tokens k s) {n : Node}
    (hn : n ∈ s.run.forest.nodes) : n.key ∈ g.keys tokens := by
  have hforest := h.kept.passed.sound.forest
  refine Grammar.mem_keys.mpr ⟨hforest.valid.forward n hn, ?_, ?_⟩
  · exact Nat.le_trans (h.ends.forest n hn) h.kept.position_le
  · cases hfams : n.families with
    | nil => exact ((hforest.leaf n hn hfams).resolve_right (by simp)).label_mem g
    | cons fam rest =>
      obtain ⟨left?, right, -, hgrown⟩ := hforest.grown n hn fam (by rw [hfams]; simp)
      exact hgrown.label_mem

theorem Stage.Reached.size_le (h : Reached g tokens k s) :
    s.run.forest.size ≤ (g.keys tokens).card := by
  have hdistinct := h.kept.passed.sound.forest.valid.distinct
  calc s.run.forest.size
      = (s.run.forest.nodes.map (·.key)).toFinset.card := by
        rw [List.toFinset_card_of_nodup hdistinct, List.length_map]
        rfl
    _ ≤ (g.keys tokens).card := by
        refine Finset.card_le_card fun key hkey => ?_
        obtain ⟨n, hn, rfl⟩ := List.mem_map.mp (List.mem_toFinset.mp hkey)
        exact h.mem_keys hn

/-- **A parse always ends**, and never holds too much on its way. It returns what it has at a
stage without next step, and no stage comes after more steps than all columns may hold items and
there are tokens. At every stage a column and its pool hold no more than all items for each origin
up to their position, none twice, and the forest has no more nodes than keys over the tokens. -/
theorem Grammar.parse_bounded (g : Grammar) (tokens : List Symbol) :
    (∃ p, g.parse tokens = .ok p ∧ (tokens ≠ [] → ∃ k s, Stage.Reached g tokens k s ∧
      s.Done tokens ∧ p = s.run.result g)) ∧
    ∀ k s, Stage.Reached g tokens k s →
      k ≤ ∑ i ∈ Finset.range (tokens.length + 1), (i + 1) * g.itemCount + tokens.length ∧
      s.cursor ≤ s.run.column.entries.length ∧
      (∀ (i : Nat) (c : Column), s.run.columns[i]? = some c →
        (c.entries ++ c.pool).length ≤ (i + 1) * g.itemCount ∧
          ((c.entries ++ c.pool).map Entry.slot).Nodup) ∧
      (s.run.forest.nodes.map (·.key)).Nodup ∧
      (∀ n ∈ s.run.forest.nodes, n.key ∈ g.keys tokens) ∧
      s.run.forest.size ≤ (g.keys tokens).card := by
  refine ⟨g.parse_reaches tokens, fun k s h => ?_⟩
  have hsound := h.kept.passed.sound
  refine ⟨h.steps_le, h.kept.cursor_le, fun i c hc => ?_, hsound.forest.valid.distinct,
    fun n hn => h.mem_keys hn, h.size_le⟩
  have hcol := hsound.column i c hc
  exact ⟨hcol.length_le, hcol.distinct⟩

end Parsing
