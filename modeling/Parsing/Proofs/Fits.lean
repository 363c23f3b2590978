/-
# Items that fit a text

An item fits the text between two positions when the moves of a parse lead to it:
the start rule is entered at the first position, the rules for a symbol after a dot
are entered where the dot stands, a dot moves over a token that its symbol reads,
and over a left-hand side that is recognised from where the dot stands. How a
symbol is treated, as one that reads tokens or as one that is expanded by rules, is
left open by a reading.

What stands before the dot of an item that fits derives the text between the two
positions (`Fits.derives`). The other way round, if symbols with rules are expanded, a dot
moves over every text read by symbols without rules that its symbol derives
(`Fits.of_reads`, `Fits.of_reads_before`); the induction follows the parse tree, so it goes
through left recursion, cycles and empty right-hand sides alike.

Key definitions: `stretch`, `Reading`, `Fits`, `Reading.Expands`, `Reading.Plain`,
`Grammar.dots`.
Key theorems: `Fits.predicted`, `Fits.derives`, `Fits.of_reads`, `Fits.of_reads_before`,
`Grammar.length_slots_le`.
-/
import Mathlib.Data.List.Forall2
import Mathlib.Data.List.Nodup
import Mathlib.Data.List.Perm.Subperm
import Mathlib.Data.List.ProdSigma
import Parsing.Item
import Parsing.Proofs.Tree

namespace Parsing

/-! ### Stretches of a text -/

/-- A list that goes on has the same first entries, and the next one behind them. -/
theorem take_succ_of_isPrefix {α : Type} {l l' : List α} {a : α} {i : Nat} (h : l <+: l')
    (ha : l[i]? = some a) : l'.take (i + 1) = l.take i ++ [a] := by
  obtain ⟨more, rfl⟩ := h
  have hlt := (List.getElem?_eq_some_iff.mp ha).1
  rw [List.take_append_of_le_length hlt, List.take_add_one, ha]
  rfl

/-- The tokens from position `start` up to position `stop`. -/
def stretch (tokens : List Symbol) (start stop : Nat) : List Symbol :=
  (tokens.take stop).drop start

section

variable {tokens : List Symbol} {i j k : Nat}

/-- The token behind the first part of a text. -/
theorem getElem?_behind {front rest : List Symbol} {token : Symbol}
    (ht : tokens = front ++ token :: rest) (hi : i = front.length) : tokens[i]? = some token := by
  rw [hi, ht, List.getElem?_append_right (Nat.le_refl _), Nat.sub_self]
  rfl

/-- What comes next behind that token. -/
theorem getElem?_ahead {front rest : List Symbol} {token : Symbol}
    (ht : tokens = front ++ token :: rest) (hi : i = front.length) :
    tokens[i + 1]? = rest.head? := by
  rw [hi, ht, List.getElem?_append_right (by omega), List.head?_eq_getElem?]
  simp

@[simp] theorem stretch_self (tokens : List Symbol) (i : Nat) : stretch tokens i i = [] := by
  simp [stretch]

@[simp] theorem stretch_all (tokens : List Symbol) : stretch tokens 0 tokens.length = tokens := by
  simp [stretch]

theorem length_stretch (hj : j ≤ tokens.length) : (stretch tokens i j).length = j - i := by
  simp [stretch, hj]

theorem stretch_append (hij : i ≤ j) (hjk : j ≤ k) :
    stretch tokens i j ++ stretch tokens j k = stretch tokens i k := by
  have hdrop : tokens.drop j = (tokens.drop i).drop (j - i) := by
    rw [List.drop_drop, Nat.add_sub_cancel' hij]
  have hlen : j - i + (k - j) = k - i := by omega
  simp only [stretch, List.drop_take]
  rw [hdrop, ← List.take_add, hlen]

theorem stretch_succ {a : Symbol} (hij : i ≤ j) (ha : tokens[j]? = some a) :
    stretch tokens i (j + 1) = stretch tokens i j ++ [a] := by
  obtain ⟨hj, -⟩ := List.getElem?_eq_some_iff.mp ha
  simp only [stretch]
  rw [List.take_add_one, ha, List.drop_append_of_le_length (by simp; omega)]
  rfl

theorem stretch_single {a : Symbol} (ha : tokens[i]? = some a) :
    stretch tokens i (i + 1) = [a] := by
  rw [stretch_succ (Nat.le_refl i) ha, stretch_self, List.nil_append]

theorem getElem?_of_stretch {a : Symbol} (h : stretch tokens i (i + 1) = [a]) :
    tokens[i]? = some a := by
  have := congrArg (·[0]?) h
  simpa [stretch] using this

theorem mem_of_mem_stretch {a : Symbol} (h : a ∈ stretch tokens i j) : a ∈ tokens :=
  List.mem_of_mem_take (List.mem_of_mem_drop h)

/-- Two texts that make up a stretch are stretches. -/
theorem stretch_eq_append {u v : List Symbol} (hij : i ≤ j) (hj : j ≤ tokens.length)
    (h : stretch tokens i j = u ++ v) :
    i + u.length ≤ j ∧ stretch tokens i (i + u.length) = u ∧
      stretch tokens (i + u.length) j = v := by
  have hlen := congrArg List.length h
  rw [length_stretch hj, List.length_append] at hlen
  have hle : i + u.length ≤ j := by omega
  have hs : stretch tokens i (i + u.length) ++ stretch tokens (i + u.length) j = u ++ v := by
    rw [stretch_append (by omega) hle, h]
  obtain ⟨h₁, h₂⟩ := List.append_inj hs (by rw [length_stretch (by omega)]; omega)
  exact ⟨hle, h₁, h₂⟩

end

/-! ### Items that fit -/

/-- How the symbol after a dot is treated: which tokens it reads, and whether it is
expanded by its rules when the given token is ahead. -/
structure Reading where
  reads : Symbol → Symbol → Prop
  expands : Symbol → Option Symbol → Prop

/-- Every symbol reads the token equal to it, and is expanded when another one is ahead. -/
def Reading.literal : Reading := ⟨fun s t => s = t, fun s ahead => ahead ≠ some s⟩

/-- The item fits the text between the two positions. -/
inductive Fits (g : Grammar) (R : Reading) (tokens : List Symbol) : Item → Nat → Nat → Prop
  | start : Fits g R tokens (.atStart g.startRule) 0 0
  | predict {it : Item} {o i : Nat} {s : Symbol} {r : Rule} (h : Fits g R tokens it o i)
      (hs : it.next? = some s) (hx : R.expands s tokens[i]?) (hr : r ∈ g.rulesFor s) :
      Fits g R tokens (.atStart r) i i
  | scan {it it' : Item} {o i : Nat} {s t : Symbol} (h : Fits g R tokens it o i)
      (hs : it.next? = some s) (ha : it.advance = .ok it') (ht : tokens[i]? = some t)
      (hx : R.reads s t) : Fits g R tokens it' o (i + 1)
  | complete {it it' done : Item} {o k i : Nat} (h : Fits g R tokens it o k)
      (hs : it.next? = some done.lhs) (ha : it.advance = .ok it')
      (hx : R.expands done.lhs tokens[k]?) (hd : Fits g R tokens done k i)
      (hc : done.isComplete = true) : Fits g R tokens it' o i

/-- Of the rules and the start rule, only the start rule is for the reserved symbol. -/
theorem Grammar.mem_rules_of_augmented {g : Grammar} {r : Rule} (hr : r ∈ g.augmented)
    (hl : r.lhs ≠ startMark) : r ∈ g.rules := by
  rcases List.mem_cons.mp hr with e | hr
  · exact absurd (congrArg Rule.lhs e) hl
  · exact hr

/-- Behind no dot stands the reserved symbol. -/
theorem Grammar.Unmarked.next?_ne {g : Grammar} (hg : g.Unmarked) {it : Item}
    (hr : it.rule ∈ g.augmented) {s : Symbol} (hs : it.next? = some s) : s ≠ startMark := by
  have hmem : s ∈ it.rule.rhs := List.mem_of_getElem? hs
  rintro rfl
  rcases List.mem_cons.mp hr with e | hr
  · rw [e] at hmem
    exact hg.1 (List.mem_singleton.mp hmem).symm
  · exact (hg.2 _ hr).2 hmem

namespace Fits

variable {g : Grammar} {R : Reading} {tokens : List Symbol} {it : Item} {o i : Nat}

theorem origin_le (h : Fits g R tokens it o i) : o ≤ i := by
  induction h with
  | start | predict => exact Nat.le_refl _
  | scan _ _ _ _ _ ih => omega
  | complete _ _ _ _ _ _ ih₁ ih₂ => omega

theorem stop_le (h : Fits g R tokens it o i) : i ≤ tokens.length := by
  induction h with
  | start => exact Nat.zero_le _
  | predict _ _ _ _ ih => exact ih
  | scan _ _ _ ht _ _ => exact (List.getElem?_eq_some_iff.mp ht).1
  | complete _ _ _ _ _ _ _ ih => exact ih

theorem rule_mem (h : Fits g R tokens it o i) : it.rule ∈ g.augmented := by
  induction h with
  | start => exact List.mem_cons_self
  | predict _ _ _ hr _ => exact List.mem_cons_of_mem _ (Grammar.mem_rulesFor.mp hr).1
  | scan _ _ ha _ _ ih => rwa [(Item.advance_eq_ok_iff.mp ha).1]
  | complete _ _ ha _ _ _ ih _ => rwa [(Item.advance_eq_ok_iff.mp ha).1]

theorem rule_mem_rules (h : Fits g R tokens it o i) (hl : it.lhs ≠ Grammar.startMark) :
    it.rule ∈ g.rules :=
  Grammar.mem_rules_of_augmented h.rule_mem hl

theorem next?_ne (hg : g.Unmarked) (h : Fits g R tokens it o i) {s : Symbol}
    (hs : it.next? = some s) : s ≠ Grammar.startMark :=
  hg.next?_ne h.rule_mem hs

/-- An item with its dot at the start fits the empty text only. -/
theorem origin_eq (h : Fits g R tokens it o i) (hd : it.dot = 0) : o = i := by
  cases h with
  | start | predict => rfl
  | scan _ _ ha _ _ => simp [(Item.advance_eq_ok_iff.mp ha).2] at hd
  | complete _ _ ha _ _ _ => simp [(Item.advance_eq_ok_iff.mp ha).2] at hd

theorem atStart (h : Fits g R tokens it o i) : Fits g R tokens (.atStart it.rule) o o := by
  induction h with
  | start => exact .start
  | predict h hs hx hr _ => exact .predict h hs hx hr
  | scan _ _ ha _ _ ih => rwa [(Item.advance_eq_ok_iff.mp ha).1]
  | complete _ _ ha _ _ _ ih _ => rwa [(Item.advance_eq_ok_iff.mp ha).1]

/-- An item has been entered at the first position for the start rule, or where some item
waits for its left-hand side. -/
theorem predicted (h : Fits g R tokens it o i) :
    (it.rule = g.startRule ∧ o = 0) ∨
      (it.rule ∈ g.rules ∧ ∃ w o', Fits g R tokens w o' o ∧ w.next? = some it.lhs ∧
        R.expands it.lhs tokens[o]?) := by
  have h := h.atStart
  generalize hw : Item.atStart it.rule = x at h
  have hrule : it.rule = x.rule := by rw [← hw]; rfl
  have hdot : x.dot = 0 := by rw [← hw]; rfl
  cases h with
  | start => exact .inl ⟨hrule, rfl⟩
  | @predict w o' _ s r h hs hx hr =>
    have hlhs : it.lhs = s := (congrArg Rule.lhs hrule).trans (Grammar.mem_rulesFor.mp hr).2
    have hmem : it.rule ∈ g.rules := hrule ▸ (Grammar.mem_rulesFor.mp hr).1
    exact .inr ⟨hmem, w, o', h, hlhs ▸ hs, hlhs ▸ hx⟩
  | scan _ _ ha _ _ => simp [(Item.advance_eq_ok_iff.mp ha).2] at hdot
  | complete _ _ ha _ _ _ => simp [(Item.advance_eq_ok_iff.mp ha).2] at hdot

/-- Where an item is entered, so are all rules with its left-hand side. -/
theorem sibling (h : Fits g R tokens it o i) (hit : it.rule ≠ g.startRule) {r : Rule}
    (hr : r ∈ g.rules) (hl : r.lhs = it.lhs) : Fits g R tokens (.atStart r) o o := by
  rcases h.predicted with ⟨e, -⟩ | ⟨-, w, o', hw, hs, hx⟩
  · exact absurd e hit
  · exact .predict hw hs hx (Grammar.mem_rulesFor.mpr ⟨hr, hl⟩)

/-- **What has been recognised is derived.** If symbols derive the tokens that they read,
what stands before the dot derives the text. -/
theorem derives {rs : List Rule} (hrs : g.augmented ⊆ rs)
    (hR : ∀ s t, R.reads s t → Derives rs [s] [t]) (h : Fits g R tokens it o i) :
    Derives rs (it.rule.rhs.take it.dot) (stretch tokens o i) := by
  induction h with
  | start | predict => simpa [Item.atStart] using Derives.refl _
  | scan h hs ha ht hx ih =>
    rw [Item.take_dot_of_advance hs ha, stretch_succ h.origin_le ht]
    exact ih.append (hR _ _ hx)
  | @complete it it' done o k i h hs ha hx hd hc ih ihd =>
    rw [Item.take_dot_of_advance hs ha, ← stretch_append h.origin_le hd.origin_le]
    rw [Item.take_dot_of_isComplete hc] at ihd
    exact ih.append ((Derives.of_rule (hrs hd.rule_mem)).trans ihd)

end Fits

/-! ### Moving a dot over what is derived -/

/-- Whether symbols with rules are expanded all along the tokens. -/
def Reading.Expands (R : Reading) (g : Grammar) (tokens : List Symbol) : Prop :=
  ∀ r ∈ g.rules, ∀ i : Nat, R.expands r.lhs tokens[i]?

/-- Whether on the given tokens symbols without rules read themselves and symbols with
rules are expanded. -/
structure Reading.Plain (R : Reading) (g : Grammar) (tokens : List Symbol) : Prop where
  reads : ∀ a ∈ tokens, R.reads a a
  expands : R.Expands g tokens

theorem Reading.literal_plain {g : Grammar} {tokens : List Symbol}
    (h : ∀ t ∈ tokens, g.isNonterminal t = false) : Reading.literal.Plain g tokens where
  reads _ _ := rfl
  expands r hr i e := by
    have := Grammar.isNonterminal_eq_false_iff.mp (h r.lhs (List.mem_of_getElem? e)) r hr
    exact this rfl

theorem Reading.Plain.forall₂ {g : Grammar} {R : Reading} {tokens w : List Symbol}
    (hR : R.Plain g tokens) {k i : Nat} (h : w = stretch tokens k i) :
    List.Forall₂ R.reads w (stretch tokens k i) := by
  rw [h]
  exact List.forall₂_same.mpr fun a ha => hR.reads a (mem_of_mem_stretch ha)

section

variable {g : Grammar} {R : Reading} {tokens : List Symbol}

/-- Symbols side by side read stretches side by side. -/
theorem stretch_of_forall₂_append {u v : List Symbol} {k i : Nat} (hk : k ≤ i)
    (hi : i ≤ tokens.length) (h : List.Forall₂ R.reads (u ++ v) (stretch tokens k i)) :
    k + u.length ≤ i ∧ List.Forall₂ R.reads u (stretch tokens k (k + u.length)) ∧
      List.Forall₂ R.reads v (stretch tokens (k + u.length) i) := by
  have hlen := h.length_eq
  rw [List.length_append, length_stretch hi] at hlen
  have hle : k + u.length ≤ i := by omega
  have hu : (stretch tokens k (k + u.length)).length = u.length := by
    rw [length_stretch (by omega)]
    omega
  rw [← stretch_append (Nat.le_add_right k _) hle] at h
  have htake := List.forall₂_take u.length h
  have hdrop := List.forall₂_drop u.length h
  rw [List.take_left, List.take_left' hu] at htake
  rw [List.drop_left, List.drop_left' hu] at hdrop
  exact ⟨hle, htake, hdrop⟩

mutual

/-- A dot moves over a text read by the yield of a parse tree for the symbol after it. -/
theorem Tree.moves (hx : R.Expands g tokens) : ∀ t : Tree, t.Valid g.rules →
    ∀ {it it' : Item} {o k i : Nat}, Fits g R tokens it o k → it.next? = some t.root →
      it.advance = .ok it' → k ≤ i → i ≤ tokens.length →
        List.Forall₂ R.reads t.yield (stretch tokens k i) → Fits g R tokens it' o i
  | .leaf a, _, it, it', o, k, i, h, hs, ha, hk, hi, ht => by
    have hlen := ht.length_eq
    rw [length_stretch hi] at hlen
    obtain rfl : i = k + 1 := by simp only [Tree.yield, List.length_singleton] at hlen; omega
    obtain ⟨b, _, hread, hnil, hb⟩ := List.forall₂_cons_left_iff.mp ht
    rw [List.forall₂_nil_left_iff.mp hnil] at hb
    exact .scan h hs ha (getElem?_of_stretch hb) hread
  | .node lhs row, ⟨hr, hrow⟩, it, it', o, k, i, h, hs, ha, hk, hi, ht => by
    have hlhs : R.expands lhs tokens[k]? := hx _ hr k
    have hentry : Fits g R tokens (.dotted lhs [] (row.symbols ++ [])) k k := by
      have := Fits.predict h hs hlhs (Grammar.mem_rulesFor.mpr ⟨hr, rfl⟩)
      simpa [Item.dotted, Item.atStart] using this
    have hdone := row.moves hx hrow hentry hk hi ht
    have hs' : it.next? = some (Item.dotted lhs row.symbols []).lhs := hs
    exact .complete h hs' ha hlhs hdone (Item.isComplete_dotted_nil lhs row.symbols)

/-- A dot moves over a text read by the yields of a row of parse trees. -/
theorem Row.moves (hx : R.Expands g tokens) : ∀ row : Row, row.Valid g.rules →
    ∀ {lhs : Symbol} {after : List Symbol} {k i : Nat},
      Fits g R tokens (.dotted lhs [] (row.symbols ++ after)) k k → k ≤ i → i ≤ tokens.length →
        List.Forall₂ R.reads row.yield (stretch tokens k i) →
          Fits g R tokens (.dotted lhs row.symbols after) k i
  | .nil, _, lhs, after, k, i, h, hk, hi, ht => by
    have hlen := ht.length_eq
    rw [length_stretch hi] at hlen
    obtain rfl : i = k := by simp only [Row.yield, List.length_nil] at hlen; omega
    exact h
  | .snoc init last, ⟨hinit, hlast⟩, lhs, after, k, i, h, hk, hi, ht => by
    obtain ⟨hm, ht₁, ht₂⟩ := stretch_of_forall₂_append hk hi ht
    have h' : Fits g R tokens (.dotted lhs [] (init.symbols ++ last.root :: after)) k k := by
      simpa [Row.symbols] using h
    have hmid := init.moves hx hinit h' (by omega) (by omega) ht₁
    exact last.moves hx hlast hmid (Item.next?_dotted_cons ..) (Item.advance_dotted ..) hm hi ht₂

end

variable {it it' : Item} {o k i : Nat} {w : List Symbol}

/-- **A dot moves over what reads the symbols that its symbol derives.** -/
theorem Fits.of_reads (hx : R.Expands g tokens) (hw : ∀ a ∈ w, ∀ r ∈ g.rules, r.lhs ≠ a)
    {s : Symbol} (h : Fits g R tokens it o k) (hs : it.next? = some s)
    (ha : it.advance = .ok it') (hk : k ≤ i) (hi : i ≤ tokens.length) (hd : Derives g.rules [s] w)
    (hread : List.Forall₂ R.reads w (stretch tokens k i)) : Fits g R tokens it' o i := by
  obtain ⟨t, hv, rfl, rfl⟩ := (derives_iff_exists_tree hw).mp hd
  exact t.moves hx hv h hs ha hk hi hread

/-- A rule that is entered fits every text that reads what the symbols before its dot derive. -/
theorem Fits.of_reads_before (hx : R.Expands g tokens) (hw : ∀ a ∈ w, ∀ r ∈ g.rules, r.lhs ≠ a)
    (h : Fits g R tokens (.atStart it.rule) o o) (hk : o ≤ i) (hi : i ≤ tokens.length)
    (hd : Derives g.rules (it.rule.rhs.take it.dot) w)
    (hread : List.Forall₂ R.reads w (stretch tokens o i)) : Fits g R tokens it o i := by
  obtain ⟨row, hv, hsym, rfl⟩ := (derives_iff_exists_row hw).mp hd
  have hentry : Fits g R tokens
      (.dotted it.lhs [] (row.symbols ++ it.rule.rhs.drop it.dot)) o o := by
    rw [hsym, List.take_append_drop]
    exact h
  have := row.moves hx hv hentry hk hi hread
  rwa [hsym, Item.dotted_take_drop] at this

/-- A rule that is entered fits every text derived by what stands before its dot. -/
theorem Fits.of_derives_before (hR : R.Plain g tokens)
    (hT : ∀ t ∈ tokens, g.isNonterminal t = false)
    (h : Fits g R tokens (.atStart it.rule) o o) (hk : o ≤ i) (hi : i ≤ tokens.length)
    (hd : Derives g.rules (it.rule.rhs.take it.dot) (stretch tokens o i)) :
    Fits g R tokens it o i :=
  .of_reads_before hR.expands
    (fun a ha => Grammar.isNonterminal_eq_false_iff.mp (hT a (mem_of_mem_stretch ha))) h hk hi hd
    (hR.forall₂ rfl)

end

/-! ### How many items fit -/

/-- The rules and the start rule, with each place for a dot. -/
def Grammar.dots (g : Grammar) : List (Rule × Nat) :=
  g.augmented.flatMap fun r => (List.range (r.rhs.length + 1)).map fun d => (r, d)

theorem Grammar.length_dots (g : Grammar) : g.dots.length = g.itemCount := by
  unfold dots itemCount augmented
  induction g.startRule :: g.rules with
  | nil => rfl
  | cons r rs ih => simp [ih]

theorem Grammar.mem_dots {g : Grammar} {it : Item} (h : it.rule ∈ g.augmented) :
    (it.rule, it.dot) ∈ g.dots := by
  have := it.dot_le
  simp only [dots, List.mem_flatMap, List.mem_map, List.mem_range]
  exact ⟨it.rule, h, it.dot, by omega, rfl⟩

/-- **There are no more slots** than items at each origin. -/
theorem Grammar.length_slots_le {g : Grammar} {i : Nat} {slots : List (Item × Nat)}
    (hnodup : slots.Nodup)
    (hslots : ∀ it o, (it, o) ∈ slots → it.rule ∈ g.augmented ∧ o ≤ i) :
    slots.length ≤ (i + 1) * g.itemCount := by
  let place : Item × Nat → (Rule × Nat) × Nat := fun p => ((p.1.rule, p.1.dot), p.2)
  have hinj : Function.Injective place := by
    rintro ⟨a, o⟩ ⟨b, o'⟩ hab
    simp only [place, Prod.mk.injEq] at hab
    obtain ⟨⟨hr, hd⟩, rfl⟩ := hab
    rw [Item.ext hr hd]
  have hsub : slots.map place ⊆ g.dots ×ˢ List.range (i + 1) := by
    intro p hp
    obtain ⟨⟨it, o⟩, hmem, rfl⟩ := List.mem_map.mp hp
    obtain ⟨hr, ho⟩ := hslots it o hmem
    refine List.mem_product.mpr ⟨Grammar.mem_dots hr, ?_⟩
    exact List.mem_range.mpr (Nat.lt_succ_of_le ho)
  calc slots.length
      = (slots.map place).length := by rw [List.length_map]
    _ ≤ (g.dots ×ˢ List.range (i + 1)).length :=
        (List.subperm_of_subset (hnodup.map hinj) hsub).length_le
    _ = (i + 1) * g.itemCount := by
        rw [List.length_product, List.length_range, Grammar.length_dots, Nat.mul_comm]

/-- **No more items fit up to a position than there are at each origin.** -/
theorem Fits.length_le {g : Grammar} {R : Reading} {tokens : List Symbol} {i : Nat}
    {slots : List (Item × Nat)} (hnodup : slots.Nodup)
    (hfits : ∀ it o, (it, o) ∈ slots → Fits g R tokens it o i) :
    slots.length ≤ (i + 1) * g.itemCount :=
  Grammar.length_slots_le hnodup fun it o h => ⟨(hfits it o h).rule_mem, (hfits it o h).origin_le⟩

end Parsing
