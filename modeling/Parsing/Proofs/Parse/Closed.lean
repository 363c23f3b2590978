/-
# Closing a column

Closing works through the entries of the present column, also through those that
arrive meanwhile. For each entry worked on, the rules for the symbol after its dot
are in the column, and if it is complete, it has its node, and the entries that wait for
its left-hand side where it began have moved on. An entry is told by its item and its origin
here, for it may get its node only when it is worked on.

Where an entry is complete at its own origin, entries that wait for it may arrive
before or after it. One that was worked on before is moved when the entry completes,
for all entries that wait in the column at that moment are; one that is worked on
after finds the left-hand side in the table of symbols derived as nothing. So two
entries worked on have met, whichever of them came first (`Run.Closing.here`).

The slots of a column are distinct pairs of an item and an origin, so the budget of a
closure is never used up before the entries are.

Key definitions: `Run.Closing`, `Run.worked`.
Key theorems: `Run.complete_spec`, `Run.visit_spec`, `Run.length_entries_le`,
`Run.close_spec`.
-/
import Parsing.Proofs.Parse.Sound

namespace Parsing

variable {g : Grammar} {tokens : List Symbol}

namespace Run

variable {run run' : Run} {done : List (Item × Nat)} {e : Entry} {cursor : Nat}

theorem Grows.columns (h : run.Grows run') {k : Nat} {c : Column} (hc : run.columns[k]? = some c) :
    ∃ c', run'.columns[k]? = some c' ∧ c.Grows c' := by
  rw [getElem?_columns] at hc
  rw [getElem?_columns, h.position, h.closed]
  split at hc
  · next hk =>
    cases hc
    exact ⟨run'.column, by rw [if_pos hk], h.column⟩
  · next hk => exact ⟨c, by rw [if_neg hk]; exact hc, .refl c⟩

/-- What has been seen to when the entries with the items and origins `done` of the present column
have been worked on. -/
structure Closing (g : Grammar) (run : Run) (done : List (Item × Nat)) : Prop where
  predicted : ∀ it o, (it, o) ∈ done → ∀ s, it.next? = some s → ∀ r ∈ g.rulesFor s,
    run.column.Has (.atStart r) run.position
  named : ∀ it o, (it, o) ∈ done → it.isComplete = true → ∃ id, ⟨it, o, some id⟩ ∈ run.column.entries
  emptied : ∀ it o, (it, o) ∈ done → it.rule.rhs = [] →
    run.forest.Packs ⟨run.position, run.position, .symbol it.lhs⟩ none
      ⟨run.position, run.position, .epsilon⟩
  listed : ∀ it, (it, run.position) ∈ done → it.isComplete = true →
    ∃ id, (it.lhs, id) ∈ run.empties
  earlier : ∀ it o, (it, o) ∈ done → it.isComplete = true → ∀ c, run.closed[o]? = some c →
    ∀ w ∈ c.entries, w.item.next? = some it.lhs →
      Moved run.forest run.column w.item w.origin o run.position it.lhs
  here : ∀ it, (it, run.position) ∈ done → it.isComplete = true →
    ∀ w o, (w, o) ∈ done → w.next? = some it.lhs →
      Moved run.forest run.column w o run.position run.position it.lhs

theorem closing_nil (g : Grammar) (run : Run) : run.Closing g [] := by
  constructor <;> simp

theorem Closing.mono (h : run.Closing g done) (hgr : run.Grows run') : run'.Closing g done where
  predicted it o hit s hs r hr := by
    rw [hgr.position]
    exact hgr.column.has (h.predicted it o hit s hs r hr)
  named it o hit hc := by
    obtain ⟨id, hid⟩ := h.named it o hit hc
    exact ⟨id, hgr.column.named _ hid id rfl⟩
  emptied it o hit hr := by
    rw [hgr.position]
    exact hgr.forest.packs (h.emptied it o hit hr)
  listed it hit hc := by
    rw [hgr.position] at hit
    obtain ⟨id, hid⟩ := h.listed it hit hc
    exact ⟨id, hgr.empties hid⟩
  earlier it o hit hc c hcol w hw hs := by
    rw [hgr.closed] at hcol
    rw [hgr.position]
    exact (h.earlier it o hit hc c hcol w hw hs).mono hgr.forest hgr.column
  here it hit hc w o hw hs := by
    rw [hgr.position] at hit ⊢
    exact (h.here it hit hc w o hw hs).mono hgr.forest hgr.column

theorem Sound.entry (h : run.Sound g tokens) (he : e ∈ run.column.entries) :
    e.Sound g tokens run.forest run.position :=
  h.present.entry e (List.mem_append_left _ he)

/-! ### Working on one entry -/

/-- The run with the node of a complete entry in the table, if the entry began here. -/
def enlist (run : Run) (e : Entry) (id : NodeId) : Run :=
  if e.origin = run.position then { run with empties := (e.item.lhs, id) :: run.empties } else run

theorem grows_enlist (run : Run) (e : Entry) (id : NodeId) : run.Grows (run.enlist e id) := by
  unfold enlist
  split
  · exact ⟨rfl, rfl, .refl _, List.subset_cons_self _ _, .refl _⟩
  · exact .refl run

theorem mem_empties_enlist {id : NodeId} (ho : e.origin = run.position) :
    (e.item.lhs, id) ∈ (run.enlist e id).empties := by
  unfold enlist
  rw [if_pos ho]
  exact List.mem_cons_self

theorem Sound.enlist (h : run.Sound g tokens) {id : NodeId}
    (hfits : Fits g .literal tokens e.item e.origin run.position) (hc : e.item.isComplete = true)
    (hid : run.forest.key? id = some ⟨e.origin, run.position, .symbol e.item.lhs⟩) :
    (run.enlist e id).Sound g tokens := by
  unfold Run.enlist
  split
  · next ho =>
    refine ⟨h.ahead, h.forest, h.column, fun s n hmem => ?_⟩
    rcases List.mem_cons.mp hmem with heq | hmem
    · cases heq
      rw [ho] at hid hfits
      exact ⟨hid, e.item, hfits, hc, rfl⟩
    · exact h.empties s n hmem
  · exact h

/-- The entries that wait for a left-hand side can move over what is complete behind them. -/
theorem Sound.waiting (h : run.Sound g tokens) {k : Nat} {c : Column}
    (hcol : run.columns[k]? = some c) {done : Item}
    (hd : Fits g .literal tokens done k run.position) (hc : done.isComplete = true) :
    ∀ w ∈ c.waiting done.lhs, w.Sound g tokens run.forest k ∧ w.item.next? = some done.lhs ∧
      Spans g tokens done.lhs k run.position := by
  intro w hw
  have hcs := h.column k c hcol
  obtain ⟨hw, hs⟩ := List.mem_filter.mp hw
  have hs : w.item.next? = some done.lhs := by simpa using hs
  refine ⟨hcs.entry w (List.mem_append_left _ hw), hs, .inr ⟨?_, done, hd, hc, rfl⟩⟩
  exact Entry.ahead_ne (hcs.waits w hw) hs

/-- A symbol that is found in the table has been derived as nothing here. -/
theorem Sound.lookup (h : run.Sound g tokens) {s : Symbol} {id : NodeId}
    (hne : tokens[run.position]? ≠ some s) (hlook : run.empties.lookup s = some id) :
    run.forest.key? id = some ⟨run.position, run.position, .symbol s⟩ ∧
      Spans g tokens s run.position run.position := by
  obtain ⟨l₁, l₂, hsplit, -⟩ := List.lookup_eq_some_iff.mp hlook
  have hmem : (s, id) ∈ run.empties := by rw [hsplit]; simp
  obtain ⟨hkey, done, hfits, hdone, hlhs⟩ := h.empties s id hmem
  exact ⟨hkey, .inr ⟨hne, done, hfits, hdone, hlhs⟩⟩

/-- What is done with a complete entry: its node is found or made, entered in the table if the entry
began here, and moved over by the entries that wait for it. -/
theorem complete_eq_ok_iff :
    run.complete cursor e = .ok run' ↔
      ∃ id run₁ run₂ c, run.completedNode cursor e = .ok (id, run₁) ∧
      (run₁.enlist e id).note (.completed e.item e.origin (run₁.enlist e id).position) = run₂ ∧
      run₂.columnAt e.origin = .ok c ∧
      run₂.advanceAll (c.waiting e.item.lhs) id = .ok run' := by
  unfold complete
  constructor
  · intro h
    obtain ⟨⟨id, run₁⟩, hnode, h⟩ := bind_eq_ok_iff.mp h
    obtain ⟨c, hcol, h⟩ := bind_eq_ok_iff.mp h
    exact ⟨id, run₁, _, c, hnode, rfl, hcol, h⟩
  · rintro ⟨id, run₁, run₂, c, hnode, rfl, hcol, h⟩
    exact bind_eq_ok_iff.mpr ⟨(id, run₁), hnode, bind_eq_ok_iff.mpr ⟨c, hcol, h⟩⟩

/-- **A complete entry moves on those that wait for it** where it began. -/
theorem complete_spec (h : run.Sound g tokens) (he : run.column.entries[cursor]? = some e)
    (hc : e.item.isComplete = true) :
    ∃ run', run.complete cursor e = .ok run' ∧ run'.Sound g tokens ∧ run.Grows run' ∧
      (∃ id, ⟨e.item, e.origin, some id⟩ ∈ run'.column.entries) ∧
      (e.item.rule.rhs = [] →
        run'.forest.Packs ⟨run.position, run.position, .symbol e.item.lhs⟩ none
          ⟨run.position, run.position, .epsilon⟩) ∧
      (e.origin = run.position → ∃ id, (e.item.lhs, id) ∈ run'.empties) ∧
      ∀ c, run.columns[e.origin]? = some c → ∀ w ∈ c.entries, w.item.next? = some e.item.lhs →
        Moved run'.forest run'.column w.item w.origin e.origin run.position e.item.lhs := by
  obtain ⟨id, run₁, hrun₁, h₁, hgr₁, hid, hnamed, hempty⟩ := completedNode_spec h he hc
  have hpos := hgr₁.position
  have he := h.entry (List.mem_of_getElem? he)
  have hfits : Fits g .literal tokens e.item e.origin run₁.position := hpos ▸ he.fits
  have hid₁ : run₁.forest.key? id = some ⟨e.origin, run₁.position, .symbol e.item.lhs⟩ := hpos ▸ hid
  set run₂ : Run := (run₁.enlist e id).note
    (.completed e.item e.origin (run₁.enlist e id).position) with hrun₂
  have h₂ : run₂.Sound g tokens := (h₁.enlist hfits hc hid₁).note _
  have hgr₂ : run₁.Grows run₂ := (grows_enlist run₁ e id).trans (grows_note _ _)
  have hpos₂ : run₂.position = run.position := hgr₂.position.trans hpos
  have hgr := hgr₁.trans hgr₂
  obtain ⟨c, hcol⟩ := run₂.exists_column (k := e.origin) (by rw [hpos₂]; exact he.fits.origin_le)
  have hwait := h₂.waiting hcol (by rw [hpos₂]; exact he.fits) hc
  have hright : run₂.forest.key? id = some ⟨e.origin, run₂.position, .symbol e.item.lhs⟩ := by
    rw [hpos₂]
    exact hgr₂.forest.key? hid
  obtain ⟨run₃, hrun₃, h₃, hgr₃, hm₃⟩ := advanceAll_spec (c.waiting e.item.lhs) h₂ hwait hright
  refine ⟨run₃, ?_, h₃, hgr.trans hgr₃, ?_, ?_, ?_, ?_⟩
  · exact complete_eq_ok_iff.mpr ⟨id, run₁, run₂, c, hrun₁, rfl, columnAt_eq_ok hcol, hrun₃⟩
  · exact ⟨id, (hgr₂.trans hgr₃).column.named _ hnamed id rfl⟩
  · exact fun hr => (hgr₂.trans hgr₃).forest.packs (hempty hr)
  · intro ho
    have hmem : (e.item.lhs, id) ∈ run₂.empties := mem_empties_enlist (ho.trans hpos.symm)
    exact ⟨id, hgr₃.empties hmem⟩
  · intro c₀ hc₀ w hw hs
    obtain ⟨c', hc', hgrow⟩ := hgr.columns hc₀
    obtain rfl : c = c' := Option.some.inj (hcol.symm.trans hc')
    obtain ⟨w', hw', hslot⟩ := hgrow.exists_entry hw
    obtain ⟨hitem, horigin⟩ : w'.item = w.item ∧ w'.origin = w.origin := Prod.mk.inj hslot
    rw [← hpos₂, ← hitem, ← horigin]
    rw [← hitem] at hs
    exact hm₃ w' (List.mem_filter.mpr ⟨hw', by simpa using hs⟩)

/-- An entry that waits for a symbol brings in the symbol's rules, and moves on if the symbol
has been derived as nothing already. -/
theorem await_spec (h : run.Sound g tokens) (he : e ∈ run.column.entries) {s : Symbol}
    (hs : e.item.next? = some s) :
    ∃ run', run.visit g cursor e = .ok run' ∧ run'.Sound g tokens ∧ run.Grows run' ∧
      (∀ r ∈ g.rulesFor s, run'.column.Has (.atStart r) run.position) ∧
      ∀ id, (s, id) ∈ run.empties →
        Moved run'.forest run'.column e.item e.origin run.position run.position s := by
  have hsound := h.entry he
  have hne : tokens[run.position]? ≠ some s := Entry.ahead_ne (h.present.waits e he) hs
  have hrules : ∀ r ∈ g.rulesFor s, Fits g .literal tokens (.atStart r) run.position run.position :=
    fun r hr => .predict hsound.fits hs hne hr
  obtain ⟨h₁, hgr₁, hhas⟩ := predict_spec h hrules
  have hpos := hgr₁.position
  cases hlook : (run.predict g s).empties.lookup s with
  | none =>
    refine ⟨run.predict g s, ?_, h₁, hgr₁, hhas, ?_⟩
    · simp only [visit, hs, hlook]
    · intro id hid
      rw [List.lookup_eq_none_iff] at hlook
      have := hlook _ (hgr₁.empties hid)
      simp at this
  | some id =>
    obtain ⟨hkey, hspan⟩ := h₁.lookup (by rw [hpos]; exact hne) hlook
    have hsound₁ : e.Sound g tokens (run.predict g s).forest (run.predict g s).position := by
      rw [hpos]
      exact hsound.mono hgr₁.forest
    obtain ⟨run₂, hrun₂, h₂, hgr₂, hm₂⟩ := advance_spec h₁ hsound₁ hs hspan hkey
    rw [hpos] at hm₂
    refine ⟨run₂, ?_, h₂, hgr₁.trans hgr₂, fun r hr => hgr₂.column.has (hhas r hr), fun _ _ => hm₂⟩
    simp only [visit, hs, hlook]
    exact hrun₂

theorem mem_concat {it : Item} {o : Nat} (h : (it, o) ∈ done ++ [e.slot]) :
    (it, o) ∈ done ∨ it = e.item ∧ o = e.origin := by
  simpa [Entry.slot] using h

/-- A complete entry has been seen to when it has its node and the entries that wait for it have
moved on. -/
theorem Closing.concat_complete (h : run'.Closing g done) (hgr : run.Grows run')
    (hdone : done ⊆ run.column.entries.map Entry.slot) (hs : e.item.next? = none)
    (hnamed : ∃ id, ⟨e.item, e.origin, some id⟩ ∈ run'.column.entries)
    (hempty : e.item.rule.rhs = [] →
      run'.forest.Packs ⟨run.position, run.position, .symbol e.item.lhs⟩ none
        ⟨run.position, run.position, .epsilon⟩)
    (hlist : e.origin = run.position → ∃ id, (e.item.lhs, id) ∈ run'.empties)
    (hmoved : ∀ c, run.columns[e.origin]? = some c → ∀ w ∈ c.entries,
      w.item.next? = some e.item.lhs →
        Moved run'.forest run'.column w.item w.origin e.origin run.position e.item.lhs) :
    run'.Closing g (done ++ [e.slot]) where
  predicted it o hit s hits := by
    rcases mem_concat hit with hit | ⟨rfl, rfl⟩
    · exact h.predicted it o hit s hits
    · rw [hs] at hits
      cases hits
  named it o hit hc := by
    rcases mem_concat hit with hit | ⟨rfl, rfl⟩
    · exact h.named it o hit hc
    · exact hnamed
  emptied it o hit hr := by
    rcases mem_concat hit with hit | ⟨rfl, rfl⟩
    · exact h.emptied it o hit hr
    · rw [hgr.position]
      exact hempty hr
  listed it hit hc := by
    rcases mem_concat hit with hit | ⟨rfl, ho⟩
    · exact h.listed it hit hc
    · exact hlist (ho.symm.trans hgr.position)
  earlier it o hit hc c hcol w hw hws := by
    rcases mem_concat hit with hit | ⟨rfl, rfl⟩
    · exact h.earlier it o hit hc c hcol w hw hws
    · rw [hgr.closed] at hcol
      have hne : e.origin ≠ run.position := Nat.ne_of_lt (List.getElem?_eq_some_iff.mp hcol).1
      rw [hgr.position]
      refine hmoved c ?_ w hw hws
      rw [getElem?_columns, if_neg hne]
      exact hcol
  here it hit hc w o hw hws := by
    have hwd : (w, o) ∈ done := by
      rcases mem_concat hw with hw | ⟨rfl, rfl⟩
      · exact hw
      · rw [hs] at hws
        cases hws
    rcases mem_concat hit with hit | ⟨rfl, ho⟩
    · exact h.here it hit hc w o hwd hws
    · obtain ⟨b, hb, hslot⟩ := List.mem_map.mp (hdone hwd)
      obtain ⟨rfl, rfl⟩ : b.item = w ∧ b.origin = o := Prod.mk.inj hslot
      rw [hgr.position] at ho ⊢
      have hmoved := hmoved run.column (ho ▸ run.getElem?_columns_position) b hb hws
      rwa [← ho] at hmoved

/-- A waiting entry has been seen to when the rules of its symbol are in, and it has moved on if
the symbol was listed as derived from nothing. -/
theorem Closing.concat_waiting (hclose : run.Closing g done) (hgr : run.Grows run') {s : Symbol}
    (hs : e.item.next? = some s)
    (hrules : ∀ r ∈ g.rulesFor s, run'.column.Has (.atStart r) run.position)
    (hmoved : ∀ id, (s, id) ∈ run.empties →
      Moved run'.forest run'.column e.item e.origin run.position run.position s) :
    run'.Closing g (done ++ [e.slot]) := by
  have h := hclose.mono hgr
  have hcomplete : ∀ {it o}, (it, o) ∈ done ++ [e.slot] → it.isComplete = true → (it, o) ∈ done := by
    intro it o hit hc
    rcases mem_concat hit with hit | ⟨rfl, rfl⟩
    · exact hit
    · rw [Item.isComplete_iff, hs] at hc
      cases hc
  refine ⟨?_, fun it o hit hc => h.named it o (hcomplete hit hc) hc, ?_,
    fun it hit hc => h.listed it (hcomplete hit hc) hc,
    fun it o hit hc => h.earlier it o (hcomplete hit hc) hc, ?_⟩
  · intro it o hit t hits r hr
    rcases mem_concat hit with hit | ⟨rfl, rfl⟩
    · exact h.predicted it o hit t hits r hr
    · obtain rfl : s = t := Option.some.inj (hs.symm.trans hits)
      rw [hgr.position]
      exact hrules r hr
  · intro it o hit hr
    rcases mem_concat hit with hit | ⟨rfl, rfl⟩
    · exact h.emptied it o hit hr
    · rw [Item.next?, hr] at hs
      cases hs
  · intro it hit hc w o hw hws
    have hitd := hcomplete hit hc
    rcases mem_concat hw with hw | ⟨rfl, rfl⟩
    · exact h.here it hitd hc w o hw hws
    · rw [hgr.position] at hitd ⊢
      obtain ⟨id, hid⟩ := hclose.listed it hitd hc
      obtain rfl : s = it.lhs := Option.some.inj (hs.symm.trans hws)
      exact hmoved id hid

/-- **Working on one more entry.** Whether it is complete or waits, it meets all entries that
were worked on before. -/
theorem visit_spec (h : run.Sound g tokens) (hclose : run.Closing g done)
    (hdone : done ⊆ run.column.entries.map Entry.slot)
    (he : run.column.entries[cursor]? = some e) :
    ∃ run', run.visit g cursor e = .ok run' ∧ run'.Sound g tokens ∧ run.Grows run' ∧
      run'.Closing g (done ++ [e.slot]) := by
  cases hs : e.item.next? with
  | none =>
    obtain ⟨run', hrun', h', hgr, hnamed, hempty, hlist, hmoved⟩ :=
      complete_spec h he (Item.isComplete_iff.mpr hs)
    exact ⟨run', by simp only [visit, hs, hrun'], h', hgr,
      (hclose.mono hgr).concat_complete hgr hdone hs hnamed hempty hlist hmoved⟩
  | some s =>
    obtain ⟨run', hrun', h', hgr, hrules, hmoved⟩ := await_spec h (List.mem_of_getElem? he) hs
    exact ⟨run', hrun', h', hgr, hclose.concat_waiting hgr hs hrules hmoved⟩

end Run

/-! ### Working through the column -/

/-- **A column and its pool hold no more than all items at each origin.** -/
theorem Column.Sound.length_le {f : Forest} {pos : Nat} {c : Column}
    (h : c.Sound g tokens f pos) :
    (c.entries ++ c.pool).length ≤ (pos + 1) * g.itemCount := by
  have hfits : ∀ it o, (it, o) ∈ (c.entries ++ c.pool).map Entry.slot →
      Fits g .literal tokens it o pos := by
    intro it o hmem
    obtain ⟨e, he, hslot⟩ := List.mem_map.mp hmem
    obtain ⟨rfl, rfl⟩ : e.item = it ∧ e.origin = o := Prod.mk.inj hslot
    exact (h.entry e he).fits
  have hle := Fits.length_le h.distinct hfits
  rwa [List.length_map] at hle

namespace Run

variable {run : Run}

/-- There are no more entries than items at each origin. -/
theorem length_entries_le (h : run.Sound g tokens) :
    run.column.entries.length ≤ (run.position + 1) * g.itemCount := by
  have hle := h.present.length_le
  rw [List.length_append] at hle
  omega

/-- The entries up to the cursor, by their items and origins. -/
def worked (run : Run) (cursor : Nat) : List (Item × Nat) :=
  (run.column.entries.map Entry.slot).take cursor

theorem worked_of_length_le {cursor : Nat} (h : run.column.entries.length ≤ cursor) :
    run.worked cursor = run.column.entries.map Entry.slot :=
  List.take_of_length_le (by rwa [List.length_map])

/-- Working on the entry behind those that have been worked on. -/
theorem visit_next_spec {cursor : Nat} (h : run.Sound g tokens)
    (hclose : run.Closing g (run.worked cursor)) {e : Entry}
    (hget : run.column.entries[cursor]? = some e) :
    ∃ run', run.visit g cursor e = .ok run' ∧ run'.Sound g tokens ∧ run.Grows run' ∧
      run'.Closing g (run'.worked (cursor + 1)) := by
  obtain ⟨run₁, hrun₁, h₁, hgr₁, hclose₁⟩ := visit_spec h hclose (List.take_subset _ _) hget
  refine ⟨run₁, hrun₁, h₁, hgr₁, ?_⟩
  have hslot : (run.column.entries.map Entry.slot)[cursor]? = some e.slot := by
    rw [List.getElem?_map, hget, Option.map_some]
  rwa [worked, take_succ_of_isPrefix hgr₁.column.slots hslot]

/-- Working through the entries from a cursor on never runs out of budget. -/
theorem closeFrom_spec : ∀ (budget cursor : Nat) {run : Run}, run.Sound g tokens →
    run.Closing g (run.worked cursor) →
    (run.position + 1) * g.itemCount ≤ budget + cursor →
    ∃ run', closeFrom g budget cursor run = .ok run' ∧ run'.Sound g tokens ∧ run.Grows run' ∧
      run'.Closing g (run'.column.entries.map Entry.slot)
  | 0, cursor, run, h, hclose, hb => by
    have hlen := length_entries_le h
    have hle : run.column.entries.length ≤ cursor := by omega
    rw [worked_of_length_le hle] at hclose
    exact ⟨run, by rw [closeFrom, if_pos hle], h, .refl run, hclose⟩
  | budget + 1, cursor, run, h, hclose, hb => by
    unfold closeFrom
    cases hget : run.column.entries[cursor]? with
    | none =>
      rw [worked_of_length_le (List.getElem?_eq_none_iff.mp hget)] at hclose
      exact ⟨run, rfl, h, .refl run, hclose⟩
    | some e =>
      obtain ⟨run₁, hrun₁, h₁, hgr₁, hclose₁⟩ := visit_next_spec h hclose hget
      obtain ⟨run₂, hrun₂, h₂, hgr₂, hclose₂⟩ :=
        closeFrom_spec budget (cursor + 1) h₁ hclose₁ (by rw [hgr₁.position]; omega)
      refine ⟨run₂, ?_, h₂, hgr₁.trans hgr₂, hclose₂⟩
      simp only [bind, Except.bind, hrun₁]
      exact hrun₂

/-- **A column gets closed**, and every entry of it has been worked on. -/
theorem close_spec (h : run.Sound g tokens) :
    ∃ run', run.close g = .ok run' ∧ run'.Sound g tokens ∧ run.Grows run' ∧
      run'.Closing g (run'.column.entries.map Entry.slot) :=
  closeFrom_spec _ 0 h (closing_nil g run) (Nat.le_refl _)

end Run

end Parsing
