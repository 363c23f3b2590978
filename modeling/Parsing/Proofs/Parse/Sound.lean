/-
# Sound parses

Every entry of a parse under way has an item that fits the text from its origin to
its position, and the node for what the item has recognised of that text, known by the
item's label and the span. With the dot at the start there is none, until an item of a rule
without a right-hand side has been worked on. No column holds an item with one origin
twice, and the pool holds exactly the entries that wait for the token ahead. `Run.Sound`
says this of all columns at once, together with the forest and the table of symbols derived
as nothing.

Each move of a parse keeps a sound parse sound and never fails; columns, table and
forest only grow, and an entry that has its node stays as it is. What a move is for is there
afterwards: after a dot has moved over a symbol, the advanced item is in the column, and its
node has the family of the move (`Moved`).

Key definitions: `Entry.Sound`, `Entry.Fresh`, `Column.Sound`, `Run.Sound`, `Run.Grows`,
`Column.Has`, `Moved`.
Key theorems: `Run.advance_spec`, `Run.advanceAll_spec`, `Run.predict_spec`,
`Run.completedNode_spec`.
-/
import Mathlib.Data.List.Perm.Basic
import Parsing.Proofs.Parse.Grown

namespace Parsing

variable {g : Grammar} {tokens : List Symbol} {f f' : Forest}

/-! ### Entries -/

namespace Entry

/-- What tells entries of a column apart. -/
def slot (e : Entry) : Item × Nat := (e.item, e.origin)

/-- Whether the item fits the text from the origin to `pos`, and the node is the one for it. An
entry whose dot has moved has a node; one with the dot at the start has none, unless it is complete
and its node has the family of the empty text. -/
structure Sound (g : Grammar) (tokens : List Symbol) (f : Forest) (pos : Nat) (e : Entry) :
    Prop where
  fits : Fits g .literal tokens e.item e.origin pos
  key : ∀ id, e.node? = some id → f.key? id = some ⟨e.origin, pos, e.item.label⟩
  exists_node : e.item.dot ≠ 0 → ∃ id, e.node? = some id
  empty : e.item.dot = 0 → ∀ id, e.node? = some id → e.item.isComplete = true ∧
    f.Packs ⟨pos, pos, .symbol e.item.lhs⟩ none ⟨pos, pos, .epsilon⟩

/-- Whether the entry is sound as entries are when they are offered: with the dot at the start it
has no node. -/
structure Fresh (g : Grammar) (tokens : List Symbol) (f : Forest) (pos : Nat) (e : Entry) : Prop
    extends e.Sound g tokens f pos where
  bare : e.item.dot = 0 → e.node? = none

section

variable {e : Entry} {it : Item} {pos k i : Nat} {s : Symbol} {id : NodeId}

theorem Sound.mono (h : e.Sound g tokens f pos) (hf : f.Grows f') : e.Sound g tokens f' pos where
  fits := h.fits
  key id hid := hf.key? (h.key id hid)
  exists_node := h.exists_node
  empty hd id hid := ⟨(h.empty hd id hid).1, hf.packs (h.empty hd id hid).2⟩

theorem Fresh.mono (h : e.Fresh g tokens f pos) (hf : f.Grows f') : e.Fresh g tokens f' pos :=
  ⟨h.toSound.mono hf, h.bare⟩

theorem Sound.dot_eq_zero (h : e.Sound g tokens f pos) (hnode : e.node? = none) :
    e.item.dot = 0 := by
  by_contra hd
  obtain ⟨id, hid⟩ := h.exists_node hd
  rw [hnode] at hid
  cases hid

/-- An entry that waits is still as it was offered. -/
theorem Sound.fresh (h : e.Sound g tokens f pos) (hs : e.item.next? = some s) :
    e.Fresh g tokens f pos := by
  refine ⟨h, fun hd => ?_⟩
  cases hnode : e.node? with
  | none => rfl
  | some id =>
    rw [Item.isComplete_iff.mp (h.empty hd id hnode).1] at hs
    cases hs

theorem Fresh.node (h : e.Fresh g tokens f pos) :
    e.node?.map f.key? = (e.item.key? e.origin pos).map some := by
  unfold Item.key?
  split
  · next hd => rw [h.bare hd]; rfl
  · next hd =>
    obtain ⟨id, hid⟩ := h.exists_node hd
    rw [hid]
    exact congrArg some (h.key id hid)

theorem fresh_atStart {r : Rule} (h : Fits g .literal tokens (.atStart r) pos pos) :
    Entry.Fresh g tokens f pos ⟨.atStart r, pos, none⟩ :=
  ⟨⟨h, nofun, fun hd => absurd rfl hd, nofun⟩, fun _ => rfl⟩

/-- An entry whose dot has moved is sound with the node for its item. -/
theorem Sound.moved (h : e.Sound g tokens f k) (hs : e.item.next? = some s)
    (ha : e.item.advance = .ok it) (hx : Spans g tokens s k i)
    (hid : f'.key? id = some ⟨e.origin, i, it.label⟩) :
    Entry.Fresh g tokens f' i ⟨it, e.origin, some id⟩ := by
  have hd : it.dot ≠ 0 := by
    rw [(Item.advance_eq_ok_iff.mp ha).2]
    exact Nat.succ_ne_zero _
  refine ⟨⟨h.fits.move hs ha hx, fun id' hid' => ?_, fun _ => ⟨id, rfl⟩, fun h => absurd h hd⟩,
    fun h => absurd h hd⟩
  obtain rfl := Option.some.inj hid'
  exact hid

end

theorem sameKey_iff {a b : Entry} : a.sameKey b = true ↔ b.slot = a.slot := by
  simp only [sameKey, slot, Bool.and_eq_true, decide_eq_true_eq, Prod.mk.injEq]
  exact ⟨fun h => ⟨h.1.symm, h.2.symm⟩, fun h => ⟨h.1.symm, h.2.symm⟩⟩

theorem scans_eq_true_iff {e : Entry} {ahead : Option Symbol} :
    e.scans ahead = true ↔ ∃ t, ahead = some t ∧ e.item.next? = some t := by
  cases ahead <;> simp [scans]

/-- An entry that does not wait for the token ahead waits for something else. -/
theorem ahead_ne {e : Entry} {ahead : Option Symbol} {s : Symbol} (h : e.scans ahead = false)
    (hs : e.item.next? = some s) : ahead ≠ some s := by
  intro e'
  rw [scans_eq_true_iff.mpr ⟨s, e', hs⟩] at h
  cases h

theorem slot_mem_insertInto (e : Entry) (es : List Entry) :
    e.slot ∈ (e.insertInto es).map slot := by
  unfold insertInto
  split
  · next h =>
    obtain ⟨b, hb, hk⟩ := List.any_eq_true.mp h
    exact List.mem_map.mpr ⟨b, hb, sameKey_iff.mp hk⟩
  · simp

theorem prefix_insertInto (e : Entry) (es : List Entry) : es <+: e.insertInto es := by
  unfold insertInto
  split
  · exact List.prefix_refl _
  · exact List.prefix_append _ _

theorem insertInto_eq (e : Entry) (es : List Entry) :
    e.insertInto es = es ∨ e.slot ∉ es.map slot ∧ e.insertInto es = es ++ [e] := by
  unfold insertInto
  split
  · exact .inl rfl
  · next h =>
    refine .inr ⟨fun hmem => h ?_, rfl⟩
    obtain ⟨b, hb, hk⟩ := List.mem_map.mp hmem
    exact List.any_eq_true.mpr ⟨b, hb, sameKey_iff.mpr hk⟩

end Entry

/-! ### Columns -/

namespace Column

/-- Whether the column holds the item with the origin. -/
def Has (c : Column) (it : Item) (origin : Nat) : Prop :=
  (it, origin) ∈ (c.entries ++ c.pool).map Entry.slot

/-- Whether `c'` has the items of `c` in their places, and the entries of `c` that have their
node. -/
structure Grows (c c' : Column) : Prop where
  slots : c.entries.map Entry.slot <+: c'.entries.map Entry.slot
  named : ∀ e ∈ c.entries, ∀ id, e.node? = some id → e ∈ c'.entries
  pool : c.pool <+: c'.pool

/-- What the column of a position keeps. -/
structure Sound (g : Grammar) (tokens : List Symbol) (f : Forest) (pos : Nat) (c : Column) :
    Prop where
  entry : ∀ e ∈ c.entries ++ c.pool, e.Sound g tokens f pos
  waits : ∀ e ∈ c.entries, e.scans tokens[pos]? = false
  scans : ∀ e ∈ c.pool, e.scans tokens[pos]? = true
  distinct : ((c.entries ++ c.pool).map Entry.slot).Nodup

variable {c c' c'' : Column} {pos : Nat}

theorem Grows.refl (c : Column) : c.Grows c :=
  ⟨List.prefix_refl _, fun _ he _ _ => he, List.prefix_refl _⟩

theorem Grows.trans (h₁ : c.Grows c') (h₂ : c'.Grows c'') : c.Grows c'' :=
  ⟨h₁.slots.trans h₂.slots, fun e he id hid => h₂.named e (h₁.named e he id hid) id hid,
    h₁.pool.trans h₂.pool⟩

theorem Grows.length_le (h : c.Grows c') : c.entries.length ≤ c'.entries.length := by
  simpa using h.slots.length_le

theorem Grows.exists_entry (h : c.Grows c') {e : Entry} (he : e ∈ c.entries) :
    ∃ e' ∈ c'.entries, e'.slot = e.slot :=
  List.mem_map.mp (h.slots.subset (List.mem_map_of_mem he))

theorem Grows.has (h : c.Grows c') {it : Item} {o : Nat} (hc : c.Has it o) : c'.Has it o := by
  unfold Has at *
  rw [List.map_append] at *
  rcases List.mem_append.mp hc with hc | hc
  · exact List.mem_append_left _ (h.slots.subset hc)
  · exact List.mem_append_right _ ((h.pool.map _).subset hc)

theorem grows_offer (c : Column) (ahead : Option Symbol) (e : Entry) :
    c.Grows (c.offer ahead e) := by
  unfold offer
  split
  · exact ⟨List.prefix_refl _, fun _ he _ _ => he, e.prefix_insertInto _⟩
  · have hentries := e.prefix_insertInto c.entries
    exact ⟨hentries.map _, fun _ he _ _ => hentries.subset he, List.prefix_refl _⟩

/-- The entry at the cursor gets the node, and the others stay as they are. -/
theorem getElem?_setNode (c : Column) (cursor : Nat) (id : NodeId) (i : Nat) :
    (c.setNode cursor id).entries[i]? =
      c.entries[i]?.map fun e => if cursor = i then { e with node? := some id } else e := by
  rw [setNode, List.getElem?_modify]
  split <;> simp

theorem map_slot_setNode (c : Column) (cursor : Nat) (id : NodeId) :
    (c.setNode cursor id).entries.map Entry.slot = c.entries.map Entry.slot := by
  refine List.ext_getElem? fun i => ?_
  rw [List.getElem?_map, List.getElem?_map, getElem?_setNode, Option.map_map]
  refine congrArg (fun p => c.entries[i]?.map p) (funext fun e => ?_)
  dsimp only [Function.comp]
  split <;> rfl

/-- An entry of the column is still there, or it is the one at the cursor with its node. -/
theorem mem_setNode {cursor : Nat} {id : NodeId} {e b : Entry} (he : c.entries[cursor]? = some e)
    (hb : b ∈ (c.setNode cursor id).entries) :
    b ∈ c.entries ∨ b = { e with node? := some id } := by
  obtain ⟨i, hi⟩ := List.mem_iff_getElem?.mp hb
  rw [getElem?_setNode] at hi
  obtain ⟨a, ha, rfl⟩ := Option.map_eq_some_iff.mp hi
  split
  · next heq =>
    obtain rfl : e = a := Option.some.inj (he.symm.trans (heq ▸ ha))
    exact .inr rfl
  · exact .inl (List.mem_of_getElem? ha)

theorem grows_setNode {cursor : Nat} {e : Entry} (he : c.entries[cursor]? = some e)
    (hnode : e.node? = none) (id : NodeId) : c.Grows (c.setNode cursor id) := by
  refine ⟨map_slot_setNode c cursor id ▸ List.prefix_refl _, fun b hb id' hid' => ?_,
    List.prefix_refl _⟩
  obtain ⟨i, hi⟩ := List.mem_iff_getElem?.mp hb
  have hne : cursor ≠ i := by
    rintro rfl
    obtain rfl : e = b := Option.some.inj (he.symm.trans hi)
    rw [hnode] at hid'
    cases hid'
  refine List.mem_of_getElem? (i := i) ?_
  rw [getElem?_setNode, hi, Option.map_some, if_neg hne]

theorem has_offer (c : Column) (ahead : Option Symbol) (e : Entry) :
    (c.offer ahead e).Has e.item e.origin := by
  unfold offer Has
  split
  · rw [List.map_append]
    exact List.mem_append_right _ (e.slot_mem_insertInto _)
  · rw [List.map_append]
    exact List.mem_append_left _ (e.slot_mem_insertInto _)

/-- A column holds one entry for an item and an origin. -/
theorem Sound.eq_of_slot (h : c.Sound g tokens f pos) {a b : Entry} (ha : a ∈ c.entries ++ c.pool)
    (hb : b ∈ c.entries ++ c.pool) (hslot : a.slot = b.slot) : a = b :=
  List.inj_on_of_nodup_map h.distinct ha hb hslot

theorem Sound.mono (h : c.Sound g tokens f pos) (hf : f.Grows f') : c.Sound g tokens f' pos :=
  ⟨fun e he => (h.entry e he).mono hf, h.waits, h.scans, h.distinct⟩

theorem sound_empty : Column.empty.Sound g tokens f pos := by
  constructor <;> simp [Column.empty]

/-- Entries of one slot are both in the pool or both not. -/
theorem scans_of_slot {a b : Entry} {ahead : Option Symbol} (h : a.slot = b.slot) :
    a.scans ahead = b.scans ahead := by
  simp only [Entry.scans, show a.item = b.item from congrArg Prod.fst h]

/-- An entry is taken in only if the column does not hold its item with its origin; it goes to the
end of the part where it belongs. -/
theorem Sound.offer_eq (h : c.Sound g tokens f pos) (e : Entry) :
    c.offer tokens[pos]? e = c ∨ ¬ c.Has e.item e.origin ∧
      (e.scans tokens[pos]? = true ∧ c.offer tokens[pos]? e = ⟨c.entries, c.pool ++ [e]⟩ ∨
        e.scans tokens[pos]? = false ∧ c.offer tokens[pos]? e = ⟨c.entries ++ [e], c.pool⟩) := by
  unfold Column.offer Has
  rw [List.map_append, List.mem_append, not_or]
  by_cases hs : e.scans tokens[pos]? = true
  · rw [if_pos hs]
    rcases e.insertInto_eq c.pool with heq | ⟨hfree, heq⟩
    · exact .inl (by rw [heq])
    · refine .inr ⟨⟨fun hmem => ?_, hfree⟩, .inl ⟨hs, by rw [heq]⟩⟩
      obtain ⟨b, hb, hslot⟩ := List.mem_map.mp hmem
      have hwaits := h.waits b hb
      rw [scans_of_slot hslot, hs] at hwaits
      cases hwaits
  · rw [if_neg hs]
    rcases e.insertInto_eq c.entries with heq | ⟨hfree, heq⟩
    · exact .inl (by rw [heq])
    · refine .inr ⟨⟨hfree, fun hmem => ?_⟩, .inr ⟨Bool.not_eq_true _ ▸ hs, by rw [heq]⟩⟩
      obtain ⟨b, hb, hslot⟩ := List.mem_map.mp hmem
      have hscans := h.scans b hb
      rw [scans_of_slot hslot] at hscans
      exact hs hscans

theorem Sound.offer (h : c.Sound g tokens f pos) {e : Entry} (he : e.Sound g tokens f pos) :
    (c.offer tokens[pos]? e).Sound g tokens f pos := by
  -- what both parts hold together is the same, wherever the entry goes
  have hentry : ∀ es : List Entry, es.Perm (e :: (c.entries ++ c.pool)) →
      ∀ b ∈ es, b.Sound g tokens f pos := by
    intro es hperm b hb
    rcases List.mem_cons.mp (hperm.subset hb) with rfl | hb
    · exact he
    · exact h.entry b hb
  have hdistinct : ∀ es : List Entry, es.Perm (e :: (c.entries ++ c.pool)) →
      ¬ c.Has e.item e.origin → (es.map Entry.slot).Nodup := by
    intro es hperm hnew
    exact (hperm.map Entry.slot).nodup_iff.mpr (List.nodup_cons.mpr ⟨hnew, h.distinct⟩)
  rcases h.offer_eq e with heq | ⟨hnew, ⟨hs, heq⟩ | ⟨hs, heq⟩⟩ <;> rw [heq]
  · exact h
  · have hperm : (c.entries ++ (c.pool ++ [e])).Perm (e :: (c.entries ++ c.pool)) := by
      rw [← List.append_assoc]
      exact List.perm_append_singleton _ _
    refine ⟨hentry _ hperm, h.waits, fun b hb => ?_, hdistinct _ hperm hnew⟩
    rcases List.mem_append.mp hb with hb | hb
    · exact h.scans b hb
    · rwa [List.mem_singleton.mp hb]
  · have hperm : ((c.entries ++ [e]) ++ c.pool).Perm (e :: (c.entries ++ c.pool)) := by
      rw [List.append_assoc]
      exact List.perm_middle
    refine ⟨hentry _ hperm, fun b hb => ?_, h.scans, hdistinct _ hperm hnew⟩
    rcases List.mem_append.mp hb with hb | hb
    · exact h.waits b hb
    · rwa [List.mem_singleton.mp hb]

/-- A column is sound with the node for the entry at the cursor. -/
theorem Sound.setNode (h : c.Sound g tokens f pos) {cursor : Nat} {e : Entry} {id : NodeId}
    (he : c.entries[cursor]? = some e)
    (hsound : Entry.Sound g tokens f pos { e with node? := some id }) :
    (c.setNode cursor id).Sound g tokens f pos where
  entry b hb := by
    rcases List.mem_append.mp hb with hb | hb
    · rcases mem_setNode he hb with hb | rfl
      · exact h.entry b (List.mem_append_left _ hb)
      · exact hsound
    · exact h.entry b (List.mem_append_right _ hb)
  waits b hb := by
    rcases mem_setNode he hb with hb | rfl
    · exact h.waits b hb
    · exact h.waits e (List.mem_of_getElem? he)
  scans := h.scans
  distinct := by
    have hdistinct := h.distinct
    rw [List.map_append] at hdistinct ⊢
    rwa [map_slot_setNode]

end Column

/-- Whether the dot of an item of a column at `k` has moved over `s` into the column `c` at
`pos`, and its node has the family of the move. -/
def Moved (f : Forest) (c : Column) (it : Item) (o k pos : Nat) (s : Symbol) : Prop :=
  ∀ it', it.advance = .ok it' → c.Has it' o ∧
    (it'.owned → f.Packs ⟨o, pos, it'.label⟩ (it.key? o k) ⟨k, pos, .symbol s⟩)

theorem Moved.mono {c c' : Column} {it : Item} {o k pos : Nat} {s : Symbol}
    (h : Moved f c it o k pos s) (hf : f.Grows f') (hc : c.Grows c') :
    Moved f' c' it o k pos s :=
  fun it' ha => ⟨hc.has (h it' ha).1, fun ho => hf.packs ((h it' ha).2 ho)⟩

/-! ### Runs -/

namespace Run

/-- The columns of all positions up to the present one. -/
def columns (run : Run) : List Column := run.closed ++ [run.column]

/-- What a parse under way keeps. -/
structure Sound (g : Grammar) (tokens : List Symbol) (run : Run) : Prop where
  ahead : run.ahead = tokens[run.position]?
  forest : run.forest.Sound g tokens
  column : ∀ (k : Nat) (c : Column), run.columns[k]? = some c → c.Sound g tokens run.forest k
  empties : ∀ (s : Symbol) (id : NodeId), (s, id) ∈ run.empties →
    run.forest.key? id = some ⟨run.position, run.position, .symbol s⟩ ∧
      ∃ done, Fits g .literal tokens done run.position run.position ∧
        done.isComplete = true ∧ done.lhs = s

/-- Whether `run'` is a later state at the same position. -/
structure Grows (run run' : Run) : Prop where
  ahead : run'.ahead = run.ahead
  closed : run'.closed = run.closed
  column : run.column.Grows run'.column
  empties : run.empties ⊆ run'.empties
  forest : run.forest.Grows run'.forest

variable {run run' run'' : Run}

theorem Grows.refl (run : Run) : run.Grows run :=
  ⟨rfl, rfl, .refl _, List.Subset.refl _, .refl _⟩

theorem Grows.trans (h₁ : run.Grows run') (h₂ : run'.Grows run'') : run.Grows run'' :=
  ⟨h₂.ahead.trans h₁.ahead, h₂.closed.trans h₁.closed, h₁.column.trans h₂.column,
    List.Subset.trans h₁.empties h₂.empties, h₁.forest.trans h₂.forest⟩

theorem Grows.position (h : run.Grows run') : run'.position = run.position :=
  congrArg List.length h.closed

theorem getElem?_columns (run : Run) (k : Nat) :
    run.columns[k]? = if k = run.position then some run.column else run.closed[k]? := by
  unfold columns position
  rcases Nat.lt_trichotomy k run.closed.length with h | h | h
  · rw [List.getElem?_append_left h, if_neg (by omega)]
  · subst h
    simp
  · rw [if_neg (by omega), List.getElem?_eq_none (by simp; omega),
      List.getElem?_eq_none (by omega)]

theorem getElem?_columns_position (run : Run) : run.columns[run.position]? = some run.column := by
  rw [getElem?_columns, if_pos rfl]

theorem columnAt_eq_ok {k : Nat} {c : Column} (h : run.columns[k]? = some c) :
    run.columnAt k = .ok c := by
  rw [getElem?_columns] at h
  unfold columnAt
  split
  · next hk =>
    rw [if_pos hk] at h
    exact congrArg Except.ok (Option.some.inj h)
  · next hk =>
    rw [if_neg hk] at h
    rw [h]

/-- There is a column for every position up to the present one. -/
theorem exists_column {k : Nat} (h : k ≤ run.position) : ∃ c, run.columns[k]? = some c := by
  have hlt : k < run.columns.length := by
    simp only [columns, List.length_append, List.length_singleton]
    exact Nat.lt_succ_of_le h
  exact ⟨_, List.getElem?_eq_getElem hlt⟩

theorem Sound.present (h : run.Sound g tokens) :
    run.column.Sound g tokens run.forest run.position :=
  h.column _ _ run.getElem?_columns_position

/-! ### Moves -/

theorem Sound.note (h : run.Sound g tokens) (ev : ParseEvent) : (run.note ev).Sound g tokens :=
  ⟨h.ahead, h.forest, h.column, h.empties⟩

theorem grows_note (run : Run) (ev : ParseEvent) : run.Grows (run.note ev) :=
  ⟨rfl, rfl, .refl _, List.Subset.refl _, .refl _⟩

theorem Sound.withForest (h : run.Sound g tokens) (hf : f.Sound g tokens)
    (hgr : run.forest.Grows f) : ({ run with forest := f } : Run).Sound g tokens where
  ahead := h.ahead
  forest := hf
  column k c hc := (h.column k c hc).mono hgr
  empties s id hmem := ⟨hgr.key? (h.empties s id hmem).1, (h.empties s id hmem).2⟩

theorem grows_withForest (hgr : run.forest.Grows f) : run.Grows { run with forest := f } :=
  ⟨rfl, rfl, .refl _, List.Subset.refl _, hgr⟩

theorem grows_offer (run : Run) (e : Entry) : run.Grows (run.offer e) :=
  ⟨rfl, rfl, Column.grows_offer _ _ _, List.Subset.refl _, .refl _⟩

theorem Sound.withColumn (h : run.Sound g tokens) {c : Column}
    (hc : c.Sound g tokens run.forest run.position) :
    ({ run with column := c } : Run).Sound g tokens where
  ahead := h.ahead
  forest := h.forest
  column k c' hc' := by
    rw [getElem?_columns] at hc'
    change (if k = run.position then some c else run.closed[k]?) = some c' at hc'
    split at hc'
    · next hk =>
      cases hc'
      rwa [hk]
    · next hk =>
      refine h.column k c' ?_
      rw [getElem?_columns, if_neg hk]
      exact hc'
  empties := h.empties

/-- **An offered entry is there afterwards.** -/
theorem offer_spec (h : run.Sound g tokens) {e : Entry}
    (he : e.Sound g tokens run.forest run.position) :
    (run.offer e).Sound g tokens ∧ (run.offer e).column.Has e.item e.origin := by
  have hcolumn : (run.column.offer run.ahead e).Sound g tokens run.forest run.position := by
    rw [h.ahead]
    exact h.present.offer he
  exact ⟨(h.withColumn hcolumn).note _, Column.has_offer _ _ _⟩

/-- A dot moves in three steps: the item moves on, its node is found or made, and the entry of both
is offered. -/
theorem advance_eq_ok_iff {e : Entry} {right : NodeId} :
    run.advance e right = .ok run' ↔ ∃ it id f, e.item.advance = .ok it ∧
      run.forest.nodeFor it e.origin run.position e.node? right = .ok (id, f) ∧
      (({ run with forest := f } : Run).note (.advanced it e.origin run.position right)).offer
        ⟨it, e.origin, some id⟩ = run' := by
  unfold advance
  constructor
  · intro h
    obtain ⟨it, ha, h⟩ := bind_eq_ok_iff.mp h
    obtain ⟨⟨id, f⟩, hnode, h⟩ := bind_eq_ok_iff.mp h
    exact ⟨it, id, f, ha, hnode, Except.ok.inj h⟩
  · rintro ⟨it, id, f, ha, hnode, rfl⟩
    exact bind_eq_ok_iff.mpr ⟨it, ha, bind_eq_ok_iff.mpr ⟨(id, f), hnode, rfl⟩⟩

theorem advanceAll_cons_eq_ok_iff {e : Entry} {es : List Entry} {right : NodeId} :
    run.advanceAll (e :: es) right = .ok run' ↔
      ∃ run₁, run.advance e right = .ok run₁ ∧ run₁.advanceAll es right = .ok run' := by
  unfold advanceAll
  rw [List.foldlM_cons, bind_eq_ok_iff]

/-- **An entry moves over a node that stands where its item waits.** -/
theorem advance_spec (h : run.Sound g tokens) {e : Entry} {k : Nat} {s : Symbol} {right : NodeId}
    (he : e.Sound g tokens run.forest k) (hs : e.item.next? = some s)
    (hx : Spans g tokens s k run.position)
    (hright : run.forest.key? right = some ⟨k, run.position, .symbol s⟩) :
    ∃ run', run.advance e right = .ok run' ∧ run'.Sound g tokens ∧ run.Grows run' ∧
      Moved run'.forest run'.column e.item e.origin k run.position s := by
  obtain ⟨hle, ha⟩ := Item.advance_of_next? hs
  obtain ⟨id, f, hrun, hf, hgr, hid, hp⟩ :=
    Forest.nodeFor_spec h.forest he.fits hs ha hx (he.fresh hs).node hright
  set it : Item := ⟨e.item.rule, e.item.dot + 1, hle⟩ with hit
  set run₁ : Run := { run with forest := f }.note (.advanced it e.origin run.position right)
    with hrun₁
  have h₁ : run₁.Sound g tokens := (h.withForest hf hgr).note _
  obtain ⟨h₂, hhas⟩ := offer_spec h₁ (he.moved hs ha hx hid).toSound
  refine ⟨run₁.offer ⟨it, e.origin, some id⟩, ?_, h₂, ?_, ?_⟩
  · exact advance_eq_ok_iff.mpr ⟨it, id, f, ha, hrun, rfl⟩
  · exact ((grows_withForest hgr).trans (grows_note _ _)).trans (grows_offer _ _)
  · intro it' ha'
    obtain rfl : it = it' := Except.ok.inj (ha.symm.trans ha')
    exact ⟨hhas, hp⟩

/-- **Entries move over one node, one after the other.** -/
theorem advanceAll_spec {k : Nat} {s : Symbol} {right : NodeId} : ∀ (es : List Entry) {run : Run},
    run.Sound g tokens → (∀ e ∈ es, e.Sound g tokens run.forest k ∧ e.item.next? = some s ∧
      Spans g tokens s k run.position) →
    run.forest.key? right = some ⟨k, run.position, .symbol s⟩ →
    ∃ run', run.advanceAll es right = .ok run' ∧ run'.Sound g tokens ∧ run.Grows run' ∧
      ∀ e ∈ es, Moved run'.forest run'.column e.item e.origin k run.position s
  | [], run, h, _, _ => ⟨run, rfl, h, .refl run, by simp⟩
  | e :: es, run, h, hes, hright => by
    obtain ⟨he, hs, hx⟩ := hes e List.mem_cons_self
    obtain ⟨run₁, hrun₁, h₁, hgr₁, hm₁⟩ := advance_spec h he hs hx hright
    have hpos := hgr₁.position
    have hes₁ : ∀ e ∈ es, e.Sound g tokens run₁.forest k ∧ e.item.next? = some s ∧
        Spans g tokens s k run₁.position := by
      intro b hb
      obtain ⟨hb, hsb, hxb⟩ := hes b (List.mem_cons_of_mem _ hb)
      exact ⟨hb.mono hgr₁.forest, hsb, by rwa [hpos]⟩
    have hright₁ : run₁.forest.key? right = some ⟨k, run₁.position, .symbol s⟩ := by
      rw [hpos]
      exact hgr₁.forest.key? hright
    obtain ⟨run₂, hrun₂, h₂, hgr₂, hm₂⟩ := advanceAll_spec es h₁ hes₁ hright₁
    rw [hpos] at hm₂
    refine ⟨run₂, advanceAll_cons_eq_ok_iff.mpr ⟨run₁, hrun₁, hrun₂⟩, h₂, hgr₁.trans hgr₂, ?_⟩
    intro b hb
    rcases List.mem_cons.mp hb with rfl | hb
    · exact hm₁.mono hgr₂.forest hgr₂.column
    · exact hm₂ b hb

/-- **The rules for a symbol are entered.** -/
theorem predict_spec (h : run.Sound g tokens) {s : Symbol}
    (hr : ∀ r ∈ g.rulesFor s, Fits g .literal tokens (.atStart r) run.position run.position) :
    (run.predict g s).Sound g tokens ∧ run.Grows (run.predict g s) ∧
      ∀ r ∈ g.rulesFor s, (run.predict g s).column.Has (.atStart r) run.position := by
  suffices ∀ (rs : List Rule) (run' : Run), run'.Sound g tokens → run.Grows run' →
      (∀ r ∈ rs, Fits g .literal tokens (.atStart r) run.position run.position) →
      ∀ run'', run'' = rs.foldl (fun run r => run.offer ⟨Item.atStart r, run.position, none⟩) run' →
      run''.Sound g tokens ∧ run'.Grows run'' ∧
        ∀ r ∈ rs, run''.column.Has (.atStart r) run.position by
    have hnote := grows_note run (.predicted s run.position)
    obtain ⟨h₁, h₂, h₃⟩ := this (g.rulesFor s) _ (h.note (.predicted s run.position)) hnote hr _ rfl
    exact ⟨h₁, hnote.trans h₂, h₃⟩
  intro rs
  induction rs with
  | nil =>
    rintro run' h' - - _ rfl
    exact ⟨h', .refl _, by simp⟩
  | cons r rs ih =>
    rintro run' h' hgr' hr' _ rfl
    have hpos := hgr'.position
    obtain ⟨h₁, hhas⟩ := offer_spec h' (Entry.fresh_atStart (by
      rw [hpos]
      exact hr' r List.mem_cons_self)).toSound
    have hgr₁ := grows_offer run' ⟨Item.atStart r, run'.position, none⟩
    obtain ⟨h₂, hgr₂, hall⟩ := ih _ h₁ (hgr'.trans hgr₁)
      (fun b hb => hr' b (List.mem_cons_of_mem _ hb)) _ rfl
    refine ⟨h₂, hgr₁.trans hgr₂, ?_⟩
    intro b hb
    rcases List.mem_cons.mp hb with rfl | hb
    · rw [← hpos]
      exact hgr₂.column.has hhas
    · exact hall b hb

/-- The node of an entry that has recognised nothing is kept with the entry. -/
theorem Sound.setNode_spec (h : run.Sound g tokens) {cursor : Nat} {e : Entry} {id : NodeId}
    (he : run.column.entries[cursor]? = some e) (hnode : e.node? = none)
    (hf : f.Sound g tokens) (hgr : run.forest.Grows f)
    (hsound : Entry.Sound g tokens f run.position { e with node? := some id }) :
    ({ run with forest := f, column := run.column.setNode cursor id } : Run).Sound g tokens ∧
      run.Grows { run with forest := f, column := run.column.setNode cursor id } := by
  have hcolumn := (h.present.mono hgr).setNode he hsound
  exact ⟨(h.withForest hf hgr).withColumn hcolumn,
    rfl, rfl, Column.grows_setNode he hnode id, List.Subset.refl _, hgr⟩

/-- **A complete entry has the node of its left-hand side** from then on. -/
theorem completedNode_spec (h : run.Sound g tokens) {cursor : Nat} {e : Entry}
    (he : run.column.entries[cursor]? = some e) (hc : e.item.isComplete = true) :
    ∃ id run', run.completedNode cursor e = .ok (id, run') ∧ run'.Sound g tokens ∧
      run.Grows run' ∧ run'.forest.key? id = some ⟨e.origin, run.position, .symbol e.item.lhs⟩ ∧
      { e with node? := some id } ∈ run'.column.entries ∧
      (e.item.rule.rhs = [] →
        run'.forest.Packs ⟨run.position, run.position, .symbol e.item.lhs⟩ none
          ⟨run.position, run.position, .epsilon⟩) := by
  have hsound := h.present.entry e (List.mem_append_left _ (List.mem_of_getElem? he))
  have hlen : e.item.dot = e.item.rule.rhs.length := by simpa [Item.isComplete] using hc
  have hlabel := Item.label_of_isComplete hc
  unfold completedNode
  cases hn : e.node? with
  | some id =>
    refine ⟨id, run, rfl, h, .refl run, hlabel ▸ hsound.key id hn, ?_, fun hr => ?_⟩
    · rw [← hn]
      exact List.mem_of_getElem? he
    · have hd : e.item.dot = 0 := by rw [hlen, hr, List.length_nil]
      exact (hsound.empty hd id hn).2
  | none =>
    have hd : e.item.dot = 0 := hsound.dot_eq_zero hn
    have hr : e.item.rule.rhs = [] := List.length_eq_zero_iff.mp (hlen.symm.trans hd)
    have ho := hsound.fits.origin_eq hd
    have hfits : Fits g .literal tokens e.item run.position run.position := ho ▸ hsound.fits
    obtain ⟨id, f, hrun, hf, hgr, hid, hp⟩ := Forest.emptyNode_spec h.forest hfits hr
    have hkey : f.key? id = some ⟨e.origin, run.position, e.item.label⟩ := by
      rw [ho, hlabel]
      exact hid
    have hnamed : Entry.Sound g tokens f run.position { e with node? := some id } :=
      ⟨hsound.fits, fun id' hid' => Option.some.inj hid' ▸ hkey, fun _ => ⟨id, rfl⟩,
        fun _ _ _ => ⟨hc, hp⟩⟩
    obtain ⟨h', hgr'⟩ := h.setNode_spec he hn hf hgr hnamed
    refine ⟨id, _, ?_, h', hgr', hlabel ▸ hkey, ?_, fun _ => hp⟩
    · exact bind_eq_ok_iff.mpr ⟨(id, f), hrun, rfl⟩
    · refine List.mem_of_getElem? (i := cursor) ?_
      rw [Column.getElem?_setNode, he, Option.map_some, if_pos rfl]

end Run

end Parsing
