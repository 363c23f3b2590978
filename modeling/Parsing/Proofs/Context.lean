/-
# Items and their contexts

An item `A -> α . β` that fits the text from `j` to `i` has a context: the reserved symbol
derives some row `γ A δ` where `γ` stands for the text up to `j`, and `α` stands for the text
from `j` to `i`. A row stands for a text when it derives symbols that read the tokens one by
one (`Yields`).

Conversely, an item with a context fits (`fits_iff_context`). A derivation need not rewrite
from left to right, so the induction is over its steps, for every symbol of the row at once:
a step leaves the symbol where it is, or rewrites something before it, or brings it in, and
then the rule of the step has been entered where its left-hand side stood.

Key definitions: `Yields`, `Reading.Proper`.
Key theorems: `Fits.yields`, `Fits.exists_context`, `Derives.exists_waiting`,
`fits_iff_context`.
-/
import Parsing.Proofs.Fits

namespace Parsing

/-- Whether the row `u` derives symbols that read the tokens one by one. -/
def Yields (rs : List Rule) (reads : Symbol → Symbol → Prop) (u tokens : List Symbol) : Prop :=
  ∃ w, Derives rs u w ∧ List.Forall₂ reads w tokens

/-- Whether only symbols without rules read tokens, and symbols with rules are expanded. -/
structure Reading.Proper (R : Reading) (g : Grammar) (tokens : List Symbol) : Prop where
  reads : ∀ s t, R.reads s t → g.isNonterminal s = false
  expands : R.Expands g tokens

/-! ### What rows stand for -/

namespace Yields

variable {rs : List Rule} {reads : Symbol → Symbol → Prop} {u v x y : List Symbol}

theorem nil : Yields rs reads [] [] := ⟨[], .refl [], .nil⟩

theorem single {s t : Symbol} (h : reads s t) : Yields rs reads [s] [t] :=
  ⟨[s], .refl [s], .cons h .nil⟩

theorem append (h₁ : Yields rs reads u x) (h₂ : Yields rs reads v y) :
    Yields rs reads (u ++ v) (x ++ y) := by
  obtain ⟨w₁, hd₁, hr₁⟩ := h₁
  obtain ⟨w₂, hd₂, hr₂⟩ := h₂
  exact ⟨w₁ ++ w₂, hd₁.append hd₂, List.rel_append hr₁ hr₂⟩

theorem of_derives (h : Derives rs u v) (hv : Yields rs reads v x) : Yields rs reads u x := by
  obtain ⟨w, hd, hr⟩ := hv
  exact ⟨w, h.trans hd, hr⟩

theorem nil_left (h : Yields rs reads [] x) : x = [] := by
  obtain ⟨w, hd, hr⟩ := h
  have hw : w = [] := by
    cases hd using Relation.ReflTransGen.head_induction_on with
    | refl => rfl
    | head hs =>
      generalize hu : ([] : List Symbol) = z at hs
      obtain @⟨r, hr, before, after⟩ := hs
      simp at hu
  rw [hw] at hr
  exact List.forall₂_nil_left_iff.mp hr

/-- Rows side by side stand for stretches side by side. -/
theorem split {R : Reading} {tokens : List Symbol} {k i : Nat} (hk : k ≤ i)
    (hi : i ≤ tokens.length) (h : Yields rs R.reads (u ++ v) (stretch tokens k i)) :
    ∃ m, k ≤ m ∧ m ≤ i ∧ Yields rs R.reads u (stretch tokens k m) ∧
      Yields rs R.reads v (stretch tokens m i) := by
  obtain ⟨w, hd, hr⟩ := h
  obtain ⟨w₁, w₂, rfl, hd₁, hd₂⟩ := hd.split
  obtain ⟨hle, hr₁, hr₂⟩ := stretch_of_forall₂_append hk hi hr
  exact ⟨k + w₁.length, Nat.le_add_right k _, hle, ⟨w₁, hd₁, hr₁⟩, ⟨w₂, hd₂, hr₂⟩⟩

end Yields

/-! ### Rows derived from the reserved symbol -/

/-- A symbol that no rule brings in does not come up. -/
theorem Derives.notMem {rs : List Rule} {s : Symbol} {u w : List Symbol}
    (hrs : ∀ r ∈ rs, s ∉ r.rhs) (hu : s ∉ u) (h : Derives rs u w) : s ∉ w := by
  induction h with
  | refl => exact hu
  | tail _ hs ih =>
    obtain @⟨r, hr, before, after⟩ := hs
    simp only [List.mem_append, List.mem_cons, not_or] at ih ⊢
    exact ⟨ih.1, hrs r hr, ih.2.2⟩

variable {g : Grammar} {R : Reading} {tokens : List Symbol} {it : Item} {o i j : Nat}

/-- What the reserved symbol derives is itself or derived from the start symbol. -/
theorem Derives.of_startMark (hg : g.Unmarked) {v : List Symbol}
    (h : Derives g.augmented [Grammar.startMark] v) :
    v = [Grammar.startMark] ∨ Derives g.rules [g.start] v ∧ Grammar.startMark ∉ v := by
  cases h using Relation.ReflTransGen.head_induction_on with
  | refl => exact .inl rfl
  | head hs hrest =>
    generalize hu : [Grammar.startMark] = u at hs
    obtain @⟨r, hr, before, after⟩ := hs
    obtain ⟨rfl, htail⟩ := (List.append_eq_singleton_iff.mp hu.symm).resolve_right (by simp)
    obtain ⟨hlhs, rfl⟩ := List.cons.inj htail
    have hstart : r = g.startRule :=
      (List.mem_cons.mp hr).resolve_right fun hr => (hg.2 r hr).1 hlhs
    have hnot : Grammar.startMark ∉ [g.start] := fun hmem => hg.1 (List.mem_singleton.mp hmem).symm
    rw [hstart, List.nil_append, List.append_nil] at hrest
    have hd : Derives g.rules [g.start] v := Derives.of_augmented hg hnot hrest
    exact .inr ⟨hd, hd.notMem (fun r hr => (hg.2 r hr).2) hnot⟩

/-- A row around a symbol, against a row in two parts: the symbol is in the first part or in the
second. -/
theorem append_eq_append_cons {u v γ δ : List Symbol} {A : Symbol} (h : u ++ v = γ ++ A :: δ) :
    (∃ m, u = γ ++ A :: m ∧ δ = m ++ v) ∨ ∃ m, γ = u ++ m ∧ v = m ++ A :: δ := by
  rcases List.append_eq_append_iff.mp h with ⟨m, rfl, hv⟩ | ⟨m, rfl, hδ⟩
  · exact .inr ⟨m, rfl, hv⟩
  · cases m with
    | nil => exact .inr ⟨[], by simp, by simpa using hδ.symm⟩
    | cons B m =>
      obtain ⟨rfl, rfl⟩ := List.cons.inj hδ
      exact .inl ⟨m, rfl, rfl⟩

/-! ### From items to contexts -/

namespace Fits

/-- **What has been recognised stands for its text.** -/
theorem yields (hg : g.Unmarked) (h : Fits g R tokens it o i) :
    Yields g.rules R.reads (it.rule.rhs.take it.dot) (stretch tokens o i) := by
  induction h with
  | start | predict => simpa [Item.atStart] using Yields.nil
  | scan h hs ha ht hx ih =>
    rw [Item.take_dot_of_advance hs ha, stretch_succ h.origin_le ht]
    exact ih.append (.single hx)
  | @complete it it' done o k i h hs ha hx hd hc ih ihd =>
    rw [Item.take_dot_of_advance hs ha, ← stretch_append h.origin_le hd.origin_le]
    rw [Item.take_dot_of_isComplete hc] at ihd
    have hr := hd.rule_mem_rules (h.next?_ne hg hs)
    exact ih.append (.of_derives (Derives.of_rule hr) ihd)

/-- The right-hand side of a complete item stands for its text. -/
theorem yields_rhs (hg : g.Unmarked) (h : Fits g R tokens it o i) (hc : it.isComplete = true) :
    Yields g.rules R.reads it.rule.rhs (stretch tokens o i) := by
  have hy := h.yields hg
  rwa [Item.take_dot_of_isComplete hc] at hy

/-- **Every item that fits has a context.** -/
theorem exists_context (hg : g.Unmarked) (h : Fits g R tokens it o i) :
    ∃ γ δ, Derives g.augmented [Grammar.startMark] (γ ++ it.lhs :: δ) ∧
      Yields g.rules R.reads γ (stretch tokens 0 o) := by
  induction h with
  | start => exact ⟨[], [], .refl _, by simpa using Yields.nil⟩
  | @predict it o i s r h hs hx hr ih =>
    obtain ⟨γ, δ, hd, hγ⟩ := ih
    obtain ⟨hr, rfl⟩ := Grammar.mem_rulesFor.mp hr
    have hrhs : it.rule.rhs = it.rule.rhs.take it.dot ++
        r.lhs :: it.rule.rhs.drop (it.dot + 1) := by
      obtain ⟨hlt, hget⟩ := List.getElem?_eq_some_iff.mp (show it.rule.rhs[it.dot]? = _ from hs)
      rw [← hget, ← List.drop_eq_getElem_cons hlt, List.take_append_drop]
    have hd : Derives g.augmented [Grammar.startMark] (γ ++ (it.rule.rhs ++ δ)) :=
      hd.tail (.step h.rule_mem γ δ)
    refine ⟨γ ++ it.rule.rhs.take it.dot, it.rule.rhs.drop (it.dot + 1) ++ δ, ?_, ?_⟩
    · rw [hrhs] at hd
      simpa [Item.atStart, Item.lhs] using hd
    · rw [← stretch_append (Nat.zero_le o) h.origin_le]
      exact hγ.append (h.yields hg)
  | scan h hs ha ht hx ih =>
    rw [Item.lhs, (Item.advance_eq_ok_iff.mp ha).1]
    exact ih
  | complete h hs ha hx hd hc ih ihd =>
    rw [Item.lhs, (Item.advance_eq_ok_iff.mp ha).1]
    exact ih

end Fits

/-! ### From contexts to items -/

/-- Of what a row stands for, its first symbols take a stretch, on which a dot moves over them. -/
theorem Fits.of_yields (hR : R.Proper g tokens) (h : Fits g R tokens (.atStart it.rule) o o)
    (ho : o ≤ i) (hi : i ≤ tokens.length)
    (hy : Yields g.rules R.reads (it.rule.rhs.take it.dot) (stretch tokens o i)) :
    Fits g R tokens it o i := by
  obtain ⟨w, hd, hr⟩ := hy
  refine .of_reads_before hR.expands (fun a ha => ?_) h ho hi hd hr
  obtain ⟨k, hk, rfl⟩ := List.mem_iff_getElem.mp ha
  exact Grammar.isNonterminal_eq_false_iff.mp
    (hR.reads _ _ (List.Forall₂.get hr hk (hr.length_eq ▸ hk)))

/-- **Where a symbol stands in a row, some item waits for it.** The induction is over the steps
that derive the row, for all its symbols. -/
theorem Derives.exists_waiting (hR : R.Proper g tokens) {v : List Symbol}
    (h : Derives g.rules [g.start] v) : ∀ γ A δ, v = γ ++ A :: δ → ∀ j ≤ tokens.length,
      Yields g.rules R.reads γ (stretch tokens 0 j) →
        ∃ it o, Fits g R tokens it o j ∧ it.next? = some A := by
  induction h with
  | refl =>
    intro γ A δ hv j hj hγ
    obtain ⟨rfl, htail⟩ := (List.append_eq_singleton_iff.mp hv.symm).resolve_right (by simp)
    have hlen := congrArg List.length hγ.nil_left
    rw [length_stretch hj, Nat.sub_zero, List.length_nil] at hlen
    rw [hlen, (List.cons.inj htail).1]
    exact ⟨_, 0, .start, rfl⟩
  | tail _ hs ih =>
    intro γ A δ hv j hj hγ
    obtain @⟨r, hr, before, after⟩ := hs
    rcases append_eq_append_cons hv with ⟨m, rfl, -⟩ | ⟨front, rfl, hrest⟩
    · -- the step is behind the symbol
      exact ih γ A (m ++ r.lhs :: after) (by simp) j hj hγ
    · rcases append_eq_append_cons hrest with ⟨m, hrhs, -⟩ | ⟨m, rfl, rfl⟩
      · -- the step brings the symbol in
        obtain ⟨k, -, hkj, hbefore, hfront⟩ := hγ.split (Nat.zero_le j) hj
        obtain ⟨w, o, hw, hs⟩ := ih before r.lhs after rfl k (Nat.le_trans hkj hj) hbefore
        have hentry : Fits g R tokens (.atStart ⟨r.lhs, front ++ A :: m⟩) k k := by
          have := Fits.predict hw hs (hR.expands r hr k) (Grammar.mem_rulesFor.mpr ⟨hr, rfl⟩)
          rwa [show r = ⟨r.lhs, front ++ A :: m⟩ by rw [← hrhs]] at this
        refine ⟨.dotted r.lhs front (A :: m), k, ?_, Item.next?_dotted_cons ..⟩
        exact .of_yields hR hentry hkj hj (by simpa [Item.dotted] using hfront)
      · -- the step is before the symbol
        have hstep : Derives g.rules (before ++ r.lhs :: m) (before ++ (r.rhs ++ m)) :=
          Relation.ReflTransGen.single (.step hr before m)
        exact ih (before ++ r.lhs :: m) A δ (by simp) j hj (.of_derives hstep hγ)

theorem Fits.of_context (hg : g.Unmarked) (hR : R.Proper g tokens) {r : Rule}
    (hr : r ∈ g.augmented) {γ δ : List Symbol}
    (hd : Derives g.augmented [Grammar.startMark] (γ ++ r.lhs :: δ)) (hj : j ≤ tokens.length)
    (hγ : Yields g.rules R.reads γ (stretch tokens 0 j)) :
    Fits g R tokens (.atStart r) j j := by
  rcases List.mem_cons.mp hr with rfl | hr
  · obtain hv | ⟨-, hnot⟩ := hd.of_startMark hg
    · obtain ⟨rfl, -⟩ := (List.append_eq_singleton_iff.mp hv).resolve_right (by simp)
      have hlen := congrArg List.length hγ.nil_left
      rw [length_stretch hj, Nat.sub_zero, List.length_nil] at hlen
      rw [hlen]
      exact .start
    · exact absurd (List.mem_append_right γ List.mem_cons_self) hnot
  · obtain hv | ⟨hd, -⟩ := hd.of_startMark hg
    · obtain ⟨-, htail⟩ := (List.append_eq_singleton_iff.mp hv).resolve_right (by simp)
      exact absurd (List.cons.inj htail).1 (hg.2 r hr).1
    · obtain ⟨w, o, hw, hs⟩ := hd.exists_waiting hR γ r.lhs δ rfl j hj hγ
      exact .predict hw hs (hR.expands r hr j) (Grammar.mem_rulesFor.mpr ⟨hr, rfl⟩)

/-- **The items that fit are those with a context.** -/
theorem fits_iff_context (hg : g.Unmarked) (hR : R.Proper g tokens) (hi : i ≤ tokens.length) :
    Fits g R tokens it o i ↔ o ≤ i ∧ it.rule ∈ g.augmented ∧
      ∃ γ δ, Derives g.augmented [Grammar.startMark] (γ ++ it.lhs :: δ) ∧
        Yields g.rules R.reads γ (stretch tokens 0 o) ∧
        Yields g.rules R.reads (it.rule.rhs.take it.dot) (stretch tokens o i) := by
  constructor
  · intro h
    obtain ⟨γ, δ, hd, hγ⟩ := h.exists_context hg
    exact ⟨h.origin_le, h.rule_mem, γ, δ, hd, hγ, h.yields hg⟩
  · rintro ⟨ho, hr, γ, δ, hd, hγ, hy⟩
    exact .of_yields hR (.of_context hg hR hr hd (Nat.le_trans ho hi) hγ) ho hi hy

end Parsing
