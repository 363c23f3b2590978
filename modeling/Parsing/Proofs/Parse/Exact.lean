/-
# Exact parses

A parse never fails: each of its moves is in order and each of its columns closes
within its budget. What it leaves is exact. The column of a position holds exactly
the items that fit the text up to there, and the forest holds exactly the families
that the moves of fitting items grow. This needs nothing of the grammar, and nothing
of the tokens but that there is one.

Completeness is an induction over the way in which an item fits. Its last move is
from an item that an earlier column, or the same one, holds; that item stands in the
pool if it waits for the token ahead, and then the next column has what it becomes,
or among the entries, and then closing has worked on it.

Key definitions: `Column.Settled`, `Run.Passed`, `Run.Finished`, `Parse.Exact`.
Key theorems: `Run.shift_spec`, `Run.walk_spec`, `Run.Finished.has`, `Grammar.parse_spec`.
-/
import Parsing.Parse
import Parsing.Proofs.Parse.Closed

namespace Parsing

variable {g : Grammar} {tokens : List Symbol}

/-! ### Settled columns -/

namespace Column

/-- Whether all entries of the column of position `k` have been worked on. -/
structure Settled (g : Grammar) (f : Forest) (columns : List Column) (k : Nat) (c : Column) :
    Prop where
  predicted : ∀ e ∈ c.entries, ∀ s, e.item.next? = some s → ∀ r ∈ g.rulesFor s,
    c.Has (.atStart r) k
  named : ∀ e ∈ c.entries, e.item.isComplete = true → ∃ id, e.node? = some id
  emptied : ∀ e ∈ c.entries, e.item.rule.rhs = [] →
    f.Packs ⟨k, k, .symbol e.item.lhs⟩ none ⟨k, k, .epsilon⟩
  completed : ∀ e ∈ c.entries, e.item.isComplete = true → ∀ c', columns[e.origin]? = some c' →
    ∀ w ∈ c'.entries, w.item.next? = some e.item.lhs →
      Moved f c w.item w.origin e.origin k e.item.lhs

variable {f f' : Forest} {columns : List Column} {k : Nat} {c : Column}

theorem Settled.mono (h : c.Settled g f columns k) (hf : f.Grows f') :
    c.Settled g f' columns k where
  predicted := h.predicted
  named := h.named
  emptied e he hr := hf.packs (h.emptied e he hr)
  completed e he hc c' hc' w hw hs := (h.completed e he hc c' hc' w hw hs).mono hf (.refl c)

/-- Later columns are of no account for an earlier one. -/
theorem Settled.append (h : c.Settled g f columns k) (hc : c.Sound g tokens f k)
    (hk : k < columns.length) (more : List Column) : c.Settled g f (columns ++ more) k where
  predicted := h.predicted
  named := h.named
  emptied := h.emptied
  completed e he hcomp c' hc' := by
    have hle := (hc.entry e (List.mem_append_left _ he)).fits.origin_le
    rw [List.getElem?_append_left (by omega)] at hc'
    exact h.completed e he hcomp c' hc'

end Column

namespace Run

variable {run run' : Run}

theorem Closing.settled (h : run.Closing g (run.column.entries.map Entry.slot))
    (hs : run.Sound g tokens) :
    run.column.Settled g run.forest run.columns run.position where
  predicted e he := h.predicted e.item e.origin (List.mem_map_of_mem he)
  named e he hc := by
    obtain ⟨id, hid⟩ := h.named e.item e.origin (List.mem_map_of_mem he) hc
    have heq := hs.present.eq_of_slot (List.mem_append_left _ he) (List.mem_append_left _ hid) rfl
    exact ⟨id, congrArg Entry.node? heq⟩
  emptied e he := h.emptied e.item e.origin (List.mem_map_of_mem he)
  completed e he hc c hcol w hw hws := by
    have hslot : (e.item, e.origin) ∈ run.column.entries.map Entry.slot := List.mem_map_of_mem he
    rw [getElem?_columns] at hcol
    split at hcol
    · next ho =>
      cases hcol
      rw [ho] at hslot ⊢
      exact h.here e.item hslot hc w.item w.origin (List.mem_map_of_mem hw) hws
    · exact h.earlier e.item e.origin hslot hc c hcol w hw hws

/-! ### Passing tokens -/

/-- What a parse keeps from one position to the next. -/
structure Passed (g : Grammar) (tokens : List Symbol) (run : Run) : Prop where
  sound : run.Sound g tokens
  entered : ∀ c, run.columns[0]? = some c → c.Has (.atStart g.startRule) 0
  settled : ∀ (k : Nat) (c : Column), run.closed[k]? = some c →
    c.Settled g run.forest run.closed k
  scanned : ∀ (k : Nat) (c c' : Column) (t : Symbol), run.closed[k]? = some c →
    run.columns[k + 1]? = some c' → tokens[k]? = some t →
      ∀ w ∈ c.pool, Moved run.forest c' w.item w.origin k (k + 1) t

/-- Work on the present column leaves what has been passed as it is. -/
theorem Passed.grows (h : run.Passed g tokens) (hs : run'.Sound g tokens) (hgr : run.Grows run') :
    run'.Passed g tokens where
  sound := hs
  entered c hc := by
    obtain ⟨c₀, hc₀⟩ := run.exists_column (Nat.zero_le _)
    obtain ⟨c', hc', hgrow⟩ := hgr.columns hc₀
    obtain rfl : c = c' := Option.some.inj (hc.symm.trans hc')
    exact hgrow.has (h.entered c₀ hc₀)
  settled k c hc := by
    rw [hgr.closed] at hc ⊢
    exact (h.settled k c hc).mono hgr.forest
  scanned k c c' t hc hc' ht w hw := by
    rw [hgr.closed] at hc
    have hlt : k < run.position := (List.getElem?_eq_some_iff.mp hc).1
    obtain ⟨c₀, hc₀⟩ := run.exists_column (k := k + 1) hlt
    obtain ⟨c₁, hc₁, hgrow⟩ := hgr.columns hc₀
    obtain rfl : c' = c₁ := Option.some.inj (hc'.symm.trans hc₁)
    exact (h.scanned k c c₀ t hc hc₀ ht w hw).mono hgr.forest hgrow

theorem passed_start (g : Grammar) (tokens : List Symbol) : (start g tokens).Passed g tokens := by
  let fresh : Run := ⟨tokens.head?, [], Column.empty, [], Forest.empty, []⟩
  have hfresh : fresh.Sound g tokens := by
    refine ⟨List.head?_eq_getElem?, Forest.sound_empty, ?_, by simp [fresh]⟩
    intro k c hc
    have hmem : c ∈ fresh.columns := List.mem_of_getElem? hc
    obtain rfl : c = Column.empty := by simpa [fresh, columns] using hmem
    exact Column.sound_empty
  obtain ⟨hs, hhas⟩ := offer_spec hfresh (Entry.fresh_atStart .start).toSound
  refine ⟨hs, ?_, ?_, ?_⟩
  · intro c hc
    obtain rfl : (fresh.offer ⟨Item.atStart g.startRule, 0, none⟩).column = c := Option.some.inj hc
    exact hhas
  · intro k c hc
    cases hc
  · intro k c c' t hc
    cases hc

/-- The state behind a token, before the pool has moved over it. -/
def stepped (run : Run) (ahead : Option Symbol) : Run :=
  { run with ahead, closed := run.closed ++ [run.column], column := Column.empty, empties := [] }

theorem columns_stepped (run : Run) (ahead : Option Symbol) :
    (run.stepped ahead).columns = run.columns ++ [Column.empty] := rfl

theorem length_columns (run : Run) : run.columns.length = run.position + 1 := by
  simp [columns, position]

theorem position_stepped (run : Run) (ahead : Option Symbol) :
    (run.stepped ahead).position = run.position + 1 := run.length_columns

theorem sound_stepped (h : run.Sound g tokens) :
    (run.stepped tokens[run.position + 1]?).Sound g tokens where
  ahead := by
    rw [position_stepped]
    rfl
  forest := h.forest
  column k c hc := by
    rw [columns_stepped] at hc
    by_cases hk : k < run.columns.length
    · rw [List.getElem?_append_left hk] at hc
      exact h.column k c hc
    · rw [List.getElem?_append_right (by omega)] at hc
      obtain rfl : c = Column.empty := by simpa using List.mem_of_getElem? hc
      exact Column.sound_empty
  empties := by simp [stepped]

/-- What is done to pass a token: if there is a pool, it moves over the token's leaf. -/
theorem shift_eq_ok_iff {token : Symbol} {ahead : Option Symbol} :
    run.shift token ahead = .ok run' ↔
      (run.column.pool = [] ∧ run.stepped ahead = run') ∨
      (run.column.pool ≠ [] ∧ ∃ leaf f,
        run.forest.ensure ⟨run.position, run.position + 1, .symbol token⟩ = .ok (leaf, f) ∧
        ({ (run.stepped ahead).note (.scanned token run.position run.column.pool.length) with
          forest := f } : Run).advanceAll run.column.pool leaf = .ok run') := by
  unfold shift
  simp only
  split
  · next hempty =>
    have hpool : run.column.pool = [] := List.isEmpty_iff.mp hempty
    constructor
    · intro h
      exact .inl ⟨hpool, Except.ok.inj h⟩
    · rintro (⟨-, rfl⟩ | ⟨hne, -⟩)
      · rfl
      · exact absurd hpool hne
  · next hempty =>
    have hpool : run.column.pool ≠ [] := mt List.isEmpty_iff.mpr hempty
    constructor
    · intro h
      obtain ⟨⟨leaf, f⟩, hleaf, h⟩ := bind_eq_ok_iff.mp h
      exact .inr ⟨hpool, leaf, f, hleaf, h⟩
    · rintro (⟨hnil, -⟩ | ⟨-, leaf, f, hleaf, h⟩)
      · exact absurd hnil hpool
      · exact bind_eq_ok_iff.mpr ⟨(leaf, f), hleaf, h⟩

theorem Passed.step (h : run.Passed g tokens) (hclose : run.Closing g (run.column.entries.map Entry.slot))
    (hs : run'.Sound g tokens) (hgr : (run.stepped tokens[run.position + 1]?).Grows run')
    (hpool : ∀ t, tokens[run.position]? = some t → ∀ w ∈ run.column.pool,
      Moved run'.forest run'.column w.item w.origin run.position (run.position + 1) t) :
    run'.Passed g tokens := by
  have hclosed : run'.closed = run.columns := hgr.closed
  have hpos : run'.position = run.position + 1 := hgr.position.trans (position_stepped _ _)
  have hf : run.forest.Grows run'.forest := hgr.forest
  refine ⟨hs, ?_, ?_, ?_⟩
  · intro c hc
    rw [getElem?_columns, if_neg (by omega), hclosed] at hc
    exact h.entered c hc
  · intro k c hc
    rw [hclosed] at hc ⊢
    have hck := hs.column k c (by
      have hlt := (List.getElem?_eq_some_iff.mp hc).1
      rw [length_columns] at hlt
      rw [getElem?_columns, if_neg (by omega), hclosed]
      exact hc)
    rw [getElem?_columns] at hc
    split at hc
    · next hk =>
      cases hc
      rw [hk]
      exact (hclose.settled h.sound).mono hf
    · have hlt : k < run.closed.length := (List.getElem?_eq_some_iff.mp hc).1
      exact ((h.settled k c hc).mono hf).append hck hlt [run.column]
  · intro k c c' t hc hc' ht w hw
    rw [hclosed, getElem?_columns] at hc
    split at hc
    · next hk =>
      cases hc
      rw [getElem?_columns, if_pos (by omega)] at hc'
      cases hc'
      rw [hk] at ht ⊢
      exact hpool t ht w hw
    · have hlt : k < run.position := (List.getElem?_eq_some_iff.mp hc).1
      rw [getElem?_columns, if_neg (by omega), hclosed] at hc'
      exact (h.scanned k c c' t hc hc' ht w hw).mono hf (.refl c')

/-- The entries of the pool wait for the token ahead. -/
theorem Sound.pool (h : run.Sound g tokens) {token : Symbol}
    (ht : tokens[run.position]? = some token) :
    ∀ e ∈ run.column.pool, e.Sound g tokens run.forest run.position ∧
      e.item.next? = some token := by
  intro e he
  obtain ⟨t, ht', hs⟩ := Entry.scans_eq_true_iff.mp (h.present.scans e he)
  obtain rfl : token = t := Option.some.inj (ht.symm.trans ht')
  exact ⟨h.present.entry e (List.mem_append_right _ he), hs⟩

/-- The token ahead gets its leaf if some entry of the pool calls for it. -/
theorem Sound.leaf_spec (h : run.Sound g tokens) {token : Symbol}
    (ht : tokens[run.position]? = some token) (hne : run.column.pool ≠ []) :
    ∃ leaf f, run.forest.ensure ⟨run.position, run.position + 1, .symbol token⟩ = .ok (leaf, f) ∧
      f.Sound g tokens ∧ run.forest.Grows f ∧
      f.key? leaf = some ⟨run.position, run.position + 1, .symbol token⟩ := by
  obtain ⟨e, he⟩ := List.exists_mem_of_ne_nil _ hne
  obtain ⟨he, hs⟩ := h.pool ht e he
  exact h.forest.ensure _ none (Nat.le_succ _) (.inl rfl) (.inl (.token he.fits hs ht))

/-- **A token is passed.** -/
theorem shift_spec (h : run.Passed g tokens) (hclose : run.Closing g (run.column.entries.map Entry.slot))
    {token : Symbol} (ht : tokens[run.position]? = some token) :
    ∃ run', run.shift token tokens[run.position + 1]? = .ok run' ∧ run'.Passed g tokens ∧
      run'.position = run.position + 1 := by
  set next := run.stepped tokens[run.position + 1]? with hnext
  have hn : next.Sound g tokens := sound_stepped h.sound
  have hpos : next.position = run.position + 1 := position_stepped _ _
  by_cases hempty : run.column.pool = []
  · refine ⟨next, shift_eq_ok_iff.mpr (.inl ⟨hempty, rfl⟩), ?_, hpos⟩
    refine h.step hclose hn (.refl next) fun t _ w hw => ?_
    rw [hempty] at hw
    cases hw
  · obtain ⟨leaf, f, hrun, hf, hgrow, hleaf⟩ := h.sound.leaf_spec ht hempty
    set run₁ : Run := { next.note (.scanned token run.position run.column.pool.length) with
      forest := f } with hrun₁
    have h₁ : run₁.Sound g tokens := (hn.note _).withForest hf hgrow
    have hgr₁ : next.Grows run₁ := (grows_note next _).trans (grows_withForest hgrow)
    have hpos₁ : run₁.position = run.position + 1 := hgr₁.position.trans hpos
    have hpool : ∀ e ∈ run.column.pool, e.Sound g tokens run₁.forest run.position ∧
        e.item.next? = some token ∧ Spans g tokens token run.position run₁.position :=
      fun e he => ⟨(h.sound.pool ht e he).1.mono hgrow, (h.sound.pool ht e he).2, .inl ⟨ht, hpos₁⟩⟩
    obtain ⟨run₂, hrun₂, h₂, hgr₂, hm₂⟩ := advanceAll_spec run.column.pool h₁ hpool
      (by rw [hpos₁]; exact hleaf)
    have hgr := hgr₁.trans hgr₂
    refine ⟨run₂, ?_, h.step hclose h₂ hgr ?_, hgr.position.trans hpos⟩
    · exact shift_eq_ok_iff.mpr (.inr ⟨hempty, leaf, f, hrun, hrun₂⟩)
    · intro t ht' w hw
      obtain rfl : token = t := Option.some.inj (ht.symm.trans ht')
      have := hm₂ w hw
      rwa [hpos₁] at this

/-- What a parse keeps when it has passed all tokens and closed its last column. -/
structure Finished (g : Grammar) (tokens : List Symbol) (run : Run) : Prop where
  passed : run.Passed g tokens
  closing : run.Closing g (run.column.entries.map Entry.slot)
  position : run.position = tokens.length

/-- **All tokens are passed**, and nothing fails on the way. -/
theorem walk_spec : ∀ (rest front : List Symbol) {run : Run}, tokens = front ++ rest →
    run.position = front.length → run.Passed g tokens →
    ∃ run', walk g rest run = .ok run' ∧ run'.Finished g tokens
  | [], front, run, ht, hpos, h => by
    obtain ⟨run₁, hrun₁, h₁, hgr₁, hclose⟩ := close_spec h.sound
    refine ⟨run₁, hrun₁, h.grows h₁ hgr₁, hclose, ?_⟩
    rw [hgr₁.position, hpos, ht, List.append_nil]
  | token :: rest, front, run, ht, hpos, h => by
    obtain ⟨run₁, hrun₁, h₁, hgr₁, hclose⟩ := close_spec h.sound
    have hpos₁ : run₁.position = front.length := hgr₁.position.trans hpos
    have htoken : tokens[run₁.position]? = some token := getElem?_behind ht hpos₁
    have hahead : tokens[run₁.position + 1]? = rest.head? := getElem?_ahead ht hpos₁
    obtain ⟨run₂, hrun₂, h₂, hpos₂⟩ := shift_spec (h.grows h₁ hgr₁) hclose htoken
    rw [hahead] at hrun₂
    obtain ⟨run₃, hrun₃, h₃⟩ := walk_spec rest (front ++ [token]) (by simpa using ht)
      (by rw [hpos₂, hpos₁]; simp) h₂
    refine ⟨run₃, ?_, h₃⟩
    unfold walk
    simp only [bind, Except.bind, hrun₁, hrun₂]
    exact hrun₃

/-! ### Completeness -/

namespace Finished

variable {it : Item} {o i k : Nat}

theorem settled (h : run.Finished g tokens) {c : Column} (hc : run.columns[k]? = some c) :
    c.Settled g run.forest run.columns k := by
  have hs := h.passed.sound.column k c hc
  rw [getElem?_columns] at hc
  split at hc
  · next hk =>
    cases hc
    rw [hk]
    exact h.closing.settled h.passed.sound
  · exact (h.passed.settled k c hc).append hs (List.getElem?_eq_some_iff.mp hc).1 [run.column]

theorem mem_entries (h : run.Finished g tokens) {c : Column} (hc : run.columns[k]? = some c)
    (hit : c.Has it o) (hs : ∀ t, tokens[k]? = some t → it.next? ≠ some t) :
    ∃ e ∈ c.entries, e.slot = (it, o) := by
  obtain ⟨e, he, hslot⟩ := List.mem_map.mp hit
  rcases List.mem_append.mp he with he | he
  · exact ⟨e, he, hslot⟩
  · obtain ⟨t, ht, hnext⟩ := Entry.scans_eq_true_iff.mp ((h.passed.sound.column k c hc).scans e he)
    rw [show e.item = it from congrArg Prod.fst hslot] at hnext
    exact absurd hnext (hs t ht)

theorem scanned (h : run.Finished g tokens) {c : Column} {t : Symbol}
    (hc : run.columns[k]? = some c) (hit : c.Has it o) (hs : it.next? = some t)
    (ht : tokens[k]? = some t) :
    ∃ c', run.columns[k + 1]? = some c' ∧ Moved run.forest c' it o k (k + 1) t := by
  have hlt : k < tokens.length := (List.getElem?_eq_some_iff.mp ht).1
  obtain ⟨c', hc'⟩ := run.exists_column (k := k + 1) (by rw [h.position]; exact hlt)
  refine ⟨c', hc', ?_⟩
  obtain ⟨e, he, hslot⟩ := List.mem_map.mp hit
  obtain ⟨rfl, rfl⟩ : e.item = it ∧ e.origin = o := Prod.mk.inj hslot
  rcases List.mem_append.mp he with he | he
  · exact absurd ht (Entry.ahead_ne ((h.passed.sound.column k c hc).waits e he) hs)
  · rw [getElem?_columns, if_neg (by rw [h.position]; omega)] at hc
    exact h.passed.scanned k c c' t hc hc' ht e he

/-- An item of a column that waits for a symbol has moved over what is complete behind it. -/
theorem completed (h : run.Finished g tokens) {done : Item} {c c' : Column}
    (hc : run.columns[k]? = some c) (hit : c.Has it o) (hs : it.next? = some done.lhs)
    (hne : tokens[k]? ≠ some done.lhs) (hc' : run.columns[i]? = some c') (hd : c'.Has done k)
    (hcomp : done.isComplete = true) : Moved run.forest c' it o k i done.lhs := by
  obtain ⟨w, hw, hwslot⟩ := h.mem_entries hc hit fun t ht e =>
    hne (ht.trans (e.symm.trans hs))
  obtain ⟨rfl, rfl⟩ : w.item = it ∧ w.origin = o := Prod.mk.inj hwslot
  obtain ⟨b, hb, hbslot⟩ := h.mem_entries hc' hd fun t _ e => by
    rw [Item.isComplete_iff.mp hcomp] at e
    cases e
  obtain ⟨rfl, rfl⟩ : b.item = done ∧ b.origin = k := Prod.mk.inj hbslot
  exact (h.settled hc').completed b hb hcomp c hc w hw hs

/-- **Every item that fits is there.** -/
theorem has (h : run.Finished g tokens) (hfits : Fits g .literal tokens it o i) :
    ∃ c, run.columns[i]? = some c ∧ c.Has it o := by
  induction hfits with
  | start =>
    obtain ⟨c, hc⟩ := run.exists_column (Nat.zero_le _)
    exact ⟨c, hc, h.passed.entered c hc⟩
  | @predict it o i s r _ hs hx hr ih =>
    obtain ⟨c, hc, hit⟩ := ih
    obtain ⟨e, he, hslot⟩ := h.mem_entries hc hit fun t ht e => hx (ht.trans (e.symm.trans hs))
    rw [← show e.item = it from congrArg Prod.fst hslot] at hs
    exact ⟨c, hc, (h.settled hc).predicted e he s hs r hr⟩
  | scan _ hs ha ht hx ih =>
    cases hx
    obtain ⟨c, hc, hit⟩ := ih
    obtain ⟨c', hc', hm⟩ := h.scanned hc hit hs ht
    exact ⟨c', hc', (hm _ ha).1⟩
  | complete _ hs ha hx _ hcomp ih₁ ih₂ =>
    obtain ⟨c, hc, hit⟩ := ih₁
    obtain ⟨c', hc', hd⟩ := ih₂
    exact ⟨c', hc', (h.completed hc hit hs hx hc' hd hcomp _ ha).1⟩

/-- **Every family that is grown is there.** -/
theorem packs (h : run.Finished g tokens) {key right : NodeKey} {left? : Option NodeKey}
    (hg : Grown g tokens key left? right) : run.forest.Packs key left? right := by
  cases hg with
  | @empty done i hd hr =>
    obtain ⟨c, hc, hit⟩ := h.has hd
    obtain ⟨e, he, hslot⟩ := h.mem_entries hc hit fun t _ e => by simp [Item.next?, hr] at e
    obtain rfl : e.item = done := congrArg Prod.fst hslot
    exact (h.settled hc).emptied e he hr
  | move hit hs ha hx ho =>
    obtain ⟨c, hc, hit⟩ := h.has hit
    rcases hx with ⟨ht, rfl⟩ | ⟨hne, done, hd, hcomp, rfl⟩
    · obtain ⟨c', hc', hm⟩ := h.scanned hc hit hs ht
      exact (hm _ ha).2 ho
    · obtain ⟨c', hc', hd⟩ := h.has hd
      exact (h.completed hc hit hs hne hc' hd hcomp _ ha).2 ho

end Finished

end Run

/-! ### The result -/

/-- What a parse leaves, told by the items that fit the text and the families that they grow. -/
structure Parse.Exact (g : Grammar) (tokens : List Symbol) (p : Parse) : Prop where
  positions : p.columns.length = tokens.length + 1
  column : ∀ (i : Nat) (c : Column), p.columns[i]? = some c → c.Sound g tokens p.forest i
  has : ∀ (it : Item) (o i : Nat), Fits g .literal tokens it o i →
    ∃ c, p.columns[i]? = some c ∧ c.Has it o
  forest : p.forest.Sound g tokens
  packs : ∀ (key : NodeKey) (left? : Option NodeKey) (right : NodeKey),
    Grown g tokens key left? right → p.forest.Packs key left? right
  root : ∀ root, p.root? = some root → p.forest.key? root = some ⟨0, tokens.length, .symbol g.start⟩
  accepts : p.accepts = true ↔ ∃ done, Fits g .literal tokens done 0 tokens.length ∧
    done.isComplete = true ∧ done.lhs = g.start

theorem Parse.Exact.has_iff {p : Parse} {c : Column} {it : Item} {o i : Nat}
    (hp : p.Exact g tokens) (hc : p.columns[i]? = some c) :
    c.Has it o ↔ Fits g .literal tokens it o i := by
  constructor
  · intro hit
    obtain ⟨e, he, hslot⟩ := List.mem_map.mp hit
    obtain ⟨rfl, rfl⟩ : e.item = it ∧ e.origin = o := Prod.mk.inj hslot
    exact ((hp.column i c hc).entry e he).fits
  · intro hfits
    obtain ⟨c', hc', hit⟩ := hp.has it o i hfits
    rwa [Option.some.inj (hc.symm.trans hc')]

/-- A root that a column names is the node of a complete item from the first position. -/
theorem Column.root?_eq_some {f : Forest} {c : Column} {n : Nat} {s : Symbol} {root : NodeId}
    (hc : c.Sound g tokens f n) (h : c.root? s = some root) :
    f.key? root = some ⟨0, n, .symbol s⟩ ∧
      ∃ done, Fits g .literal tokens done 0 n ∧ done.isComplete = true ∧ done.lhs = s := by
  obtain ⟨e, hfind, hnode⟩ := Option.bind_eq_some_iff.mp h
  have he := List.mem_of_find?_eq_some hfind
  have hp := List.find?_some hfind
  simp only [Bool.and_eq_true, decide_eq_true_eq] at hp
  obtain ⟨⟨ho, hcomp⟩, hlhs⟩ := hp
  have hsound := hc.entry e (List.mem_append_left _ he)
  refine ⟨?_, e.item, ho ▸ hsound.fits, hcomp, hlhs⟩
  have hkey := hsound.key root hnode
  rwa [Item.label_of_isComplete hcomp, ho, hlhs] at hkey

/-- A column names a root if it holds a complete item from the first position, behind at least
one token. -/
theorem Column.isSome_root? {f : Forest} {c : Column} {n : Nat} {done : Item} (hn : n ≠ 0)
    (hc : c.Sound g tokens f n) (hdone : ∃ e ∈ c.entries, e.slot = (done, 0))
    (hcomp : done.isComplete = true) : (c.root? done.lhs).isSome = true := by
  obtain ⟨b, hb, hslot⟩ := hdone
  obtain ⟨rfl, hb0⟩ : b.item = done ∧ b.origin = 0 := Prod.mk.inj hslot
  unfold Column.root?
  cases hfind : c.entries.find? fun e => e.origin = 0 && e.item.isComplete &&
      e.item.lhs = b.item.lhs with
  | none =>
    have := List.find?_eq_none.mp hfind b hb
    simp [hb0, hcomp] at this
  | some e =>
    have he := List.mem_of_find?_eq_some hfind
    have hp := List.find?_some hfind
    simp only [Bool.and_eq_true, decide_eq_true_eq] at hp
    have hsound := hc.entry e (List.mem_append_left _ he)
    -- an empty right-hand side would end where it begins
    have hd : e.item.dot ≠ 0 := fun hd => hn ((hsound.fits.origin_eq hd).symm.trans hp.1.1)
    obtain ⟨id, hid⟩ := hsound.exists_node hd
    simp [hid]

theorem Run.Finished.exact {run : Run} (h : run.Finished g tokens) (hne : tokens ≠ []) :
    (run.result g).Exact g tokens := by
  have hroot : (run.result g).root? = run.column.root? g.start := rfl
  have hlast := h.passed.sound.present
  rw [h.position] at hlast
  refine ⟨?_, h.passed.sound.column, fun _ _ _ => h.has, h.passed.sound.forest,
    fun _ _ _ => h.packs, ?_, ?_⟩
  · exact (Run.length_columns run).trans (congrArg (· + 1) h.position)
  · intro root hr
    rw [hroot] at hr
    exact (Column.root?_eq_some hlast hr).1
  · rw [Parse.accepts, hroot]
    constructor
    · intro hsome
      obtain ⟨root, hr⟩ := Option.isSome_iff_exists.mp hsome
      exact (Column.root?_eq_some hlast hr).2
    · rintro ⟨done, hd, hcomp, hlhs⟩
      obtain ⟨c, hc, hit⟩ := h.has hd
      obtain ⟨e, he, hslot⟩ := h.mem_entries hc hit fun t _ e => by
        rw [Item.isComplete_iff.mp hcomp] at e
        cases e
      rw [Run.getElem?_columns, if_pos h.position.symm] at hc
      cases hc
      rw [← hlhs]
      exact Column.isSome_root? (mt List.length_eq_zero_iff.mp hne) hlast ⟨e, he, hslot⟩ hcomp

/-- **A parse of at least one token never fails and is exact.** -/
theorem Grammar.parse_spec (g : Grammar) (hne : tokens ≠ []) :
    ∃ p, g.parse tokens = .ok p ∧ p.Exact g tokens := by
  obtain ⟨run, hrun, h⟩ := Run.walk_spec tokens [] rfl rfl (Run.passed_start g tokens)
  refine ⟨run.result g, ?_, h.exact hne⟩
  unfold parse
  rw [if_neg (by simpa using hne)]
  simp only [bind, Except.bind, hrun]
  rfl

end Parsing
