/-
# Sound sweeps

The item of every state is one that recognition reaches between where the state starts and where
it stops. A state stands in the set of the position where it stops, and stands there once;
`Sweep.Sound` says this of all sets at once.

Each move of a sweep keeps a sound sweep sound and never fails, for any grammar and any lexicon,
and the sets of the present and the next position only grow. What the move is for is there
afterwards.

Key definitions: `Placed`, `Sweep.Sound`, `Sweep.Grows`, `Sweep.Holds`, `Sweep.Moved`.
Key theorems: `Sweep.predict_spec`, `Sweep.scan_spec`, `Sweep.complete_spec`.
-/
import Parsing.Proofs.Chart.Reaches

namespace Parsing

variable {r : Recognizer} {tokens : List String}

/-! ### Sets of states -/

/-- What tells the states of one set apart. -/
def State.slot (s : State) : Item × Nat := (s.item, s.start)

/-- Whether the states stop at the position, `P` holds of their items from where they start to
where they stop, and none is there twice. -/
structure Placed (P : Item → Nat → Nat → Prop) (pos : Nat) (states : List State) : Prop where
  stop : ∀ s ∈ states, s.stop = pos
  spans : ∀ s ∈ states, P s.item s.start s.stop
  distinct : states.Nodup

namespace Placed

variable {P : Item → Nat → Nat → Prop} {pos : Nat} {states : List State}

theorem nil : Placed P pos [] := by
  constructor <;> simp

theorem concat (h : Placed P pos states) {it : Item} {o : Nat} (hit : P it o pos)
    (hnew : ⟨it, o, pos⟩ ∉ states) : Placed P pos (states ++ [⟨it, o, pos⟩]) where
  stop s hs := by
    rcases List.mem_append.mp hs with hs | hs
    · exact h.stop s hs
    · rw [List.mem_singleton.mp hs]
  spans s hs := by
    rcases List.mem_append.mp hs with hs | hs
    · exact h.spans s hs
    · rw [List.mem_singleton.mp hs]
      exact hit
  distinct :=
    (List.perm_append_singleton _ _).nodup_iff.mpr (List.nodup_cons.mpr ⟨hnew, h.distinct⟩)

/-- The states of a set stop at one position, so they differ in their items or starts. -/
theorem nodup_slots (h : Placed P pos states) : (states.map State.slot).Nodup := by
  refine List.Nodup.map_on ?_ h.distinct
  rintro ⟨it, o, i⟩ ha ⟨it', o', i'⟩ hb heq
  obtain ⟨rfl, rfl⟩ : it = it' ∧ o = o' := Prod.mk.inj heq
  obtain rfl : i = i' := (h.stop _ ha).trans (h.stop _ hb).symm
  rfl

end Placed

namespace Sweep

/-- What a sweep under way keeps. -/
structure Sound (r : Recognizer) (tokens : List String) (sw : Sweep) : Prop where
  ahead : sw.ahead = tokens[sw.position]?
  closed : ∀ (k : Nat) (states : List State), sw.closed[k]? = some states →
    Placed (r.Reaches tokens) k states
  here : Placed (r.Reaches tokens) sw.position sw.here
  next : Placed (r.Reaches tokens) (sw.position + 1) sw.next

/-- Whether `sw'` is a later state at the same position. -/
structure Grows (sw sw' : Sweep) : Prop where
  ahead : sw'.ahead = sw.ahead
  closed : sw'.closed = sw.closed
  here : sw.here <+: sw'.here
  next : sw.next <+: sw'.next

/-- Whether some set has the state. -/
def Holds (sw : Sweep) (s : State) : Prop := s ∈ sw.closed.flatten ++ (sw.here ++ sw.next)

/-- Whether the state has moved on: with its dot one symbol further, it stops at `pos`. -/
def Moved (sw : Sweep) (s : State) (pos : Nat) : Prop :=
  ∀ it', s.item.advance = .ok it' → sw.Holds ⟨it', s.start, pos⟩

variable {sw sw' sw'' : Sweep} {s : State}

theorem Grows.refl (sw : Sweep) : sw.Grows sw :=
  ⟨rfl, rfl, List.prefix_refl _, List.prefix_refl _⟩

theorem Grows.trans (h₁ : sw.Grows sw') (h₂ : sw'.Grows sw'') : sw.Grows sw'' :=
  ⟨h₂.ahead.trans h₁.ahead, h₂.closed.trans h₁.closed, h₁.here.trans h₂.here,
    h₁.next.trans h₂.next⟩

theorem Grows.position (h : sw.Grows sw') : sw'.position = sw.position :=
  congrArg List.length h.closed

theorem holds_iff : sw.Holds s ↔ s ∈ sw.closed.flatten ∨ s ∈ sw.here ∨ s ∈ sw.next := by
  simp only [Holds, List.mem_append]

theorem Grows.holds (h : sw.Grows sw') (hs : sw.Holds s) : sw'.Holds s := by
  rw [holds_iff] at hs ⊢
  rw [h.closed]
  exact hs.imp id (.imp (fun hs => h.here.subset hs) fun hs => h.next.subset hs)

theorem Grows.moved (h : sw.Grows sw') {pos : Nat} (hs : sw.Moved s pos) : sw'.Moved s pos :=
  fun it' ha => h.holds (hs it' ha)

theorem moved_of_holds {it : Item} {pos : Nat} (ha : s.item.advance = .ok it)
    (h : sw.Holds ⟨it, s.start, pos⟩) : sw.Moved s pos := by
  intro it' ha'
  rwa [← Except.ok.inj (ha.symm.trans ha')]

theorem holds_of_mem_here (hs : s ∈ sw.here) : sw.Holds s := holds_iff.mpr (.inr (.inl hs))

namespace Sound

theorem mem_closed_iff (h : sw.Sound r tokens) :
    s ∈ sw.closed.flatten ↔ ∃ states, sw.closed[s.stop]? = some states ∧ s ∈ states := by
  constructor
  · intro hs
    obtain ⟨states, hmem, hs⟩ := List.mem_flatten.mp hs
    obtain ⟨k, hk⟩ := List.mem_iff_getElem?.mp hmem
    refine ⟨states, ?_, hs⟩
    rw [(h.closed k states hk).stop s hs]
    exact hk
  · rintro ⟨states, hk, hs⟩
    exact List.mem_flatten.mpr ⟨states, List.mem_of_getElem? hk, hs⟩

theorem stop_lt (h : sw.Sound r tokens) (hs : s ∈ sw.closed.flatten) :
    s.stop < sw.position := by
  obtain ⟨states, hk, -⟩ := h.mem_closed_iff.mp hs
  exact (List.getElem?_eq_some_iff.mp hk).1

theorem reaches (h : sw.Sound r tokens) (hs : sw.Holds s) :
    r.Reaches tokens s.item s.start s.stop := by
  rcases holds_iff.mp hs with hs | hs | hs
  · obtain ⟨states, hk, hs⟩ := h.mem_closed_iff.mp hs
    exact (h.closed _ states hk).spans s hs
  · exact h.here.spans s hs
  · exact h.next.spans s hs

theorem reaches_here (h : sw.Sound r tokens) (hs : s ∈ sw.here) :
    r.Reaches tokens s.item s.start sw.position := by
  have hreach := h.here.spans s hs
  rwa [h.here.stop s hs] at hreach

theorem holds_of_lt (h : sw.Sound r tokens) (hlt : s.stop < sw.position) :
    sw.Holds s ↔ s ∈ sw.closed.flatten := by
  refine ⟨fun hs => ?_, fun hs => holds_iff.mpr (.inl hs)⟩
  rcases holds_iff.mp hs with hs | hs | hs
  · exact hs
  · exact absurd (h.here.stop s hs) (by omega)
  · exact absurd (h.next.stop s hs) (by omega)

theorem holds_of_eq (h : sw.Sound r tokens) (heq : s.stop = sw.position) :
    sw.Holds s ↔ s ∈ sw.here := by
  refine ⟨fun hs => ?_, holds_of_mem_here⟩
  rcases holds_iff.mp hs with hs | hs | hs
  · exact absurd (h.stop_lt hs) (by omega)
  · exact hs
  · exact absurd (h.next.stop s hs) (by omega)

theorem setAt (h : sw.Sound r tokens) {k : Nat} (hk : k ≤ sw.position) :
    ∃ states, sw.setAt k = .ok states ∧ ∀ s, s ∈ states ↔ sw.Holds s ∧ s.stop = k := by
  unfold Sweep.setAt
  split
  · next heq =>
    refine ⟨sw.here, rfl, fun s => ⟨fun hs => ?_, fun hs => ?_⟩⟩
    · exact ⟨holds_of_mem_here hs, (h.here.stop s hs).trans heq.symm⟩
    · exact (h.holds_of_eq (hs.2.trans heq)).mp hs.1
  · next hne =>
    have hlt : k < sw.closed.length := Nat.lt_of_le_of_ne hk hne
    rw [List.getElem?_eq_getElem hlt]
    refine ⟨sw.closed[k], rfl, fun s => ⟨fun hs => ?_, ?_⟩⟩
    · have hstop := (h.closed k _ (List.getElem?_eq_getElem hlt)).stop s hs
      exact ⟨holds_iff.mpr (.inl (List.mem_flatten.mpr ⟨_, List.getElem_mem hlt, hs⟩)), hstop⟩
    · rintro ⟨hs, rfl⟩
      obtain ⟨states, hget, hs⟩ := h.mem_closed_iff.mp ((h.holds_of_lt hlt).mp hs)
      rw [List.getElem?_eq_getElem hlt] at hget
      rwa [← Option.some.inj hget] at hs

end Sound

/-! ### Moves -/

theorem Sound.note (h : sw.Sound r tokens) (ev : ChartEvent) :
    (sw.note ev).Sound r tokens :=
  ⟨h.ahead, h.closed, h.here, h.next⟩

theorem grows_note (sw : Sweep) (ev : ChartEvent) : sw.Grows (sw.note ev) :=
  ⟨rfl, rfl, List.prefix_refl _, List.prefix_refl _⟩

variable {it : Item} {o : Nat}

/-- **An item that is reached here is there afterwards.** -/
theorem enqueueHere_spec (h : sw.Sound r tokens)
    (hit : r.Reaches tokens it o sw.position) :
    (sw.enqueueHere it o).Sound r tokens ∧ sw.Grows (sw.enqueueHere it o) ∧
      (sw.enqueueHere it o).Holds ⟨it, o, sw.position⟩ := by
  unfold enqueueHere
  dsimp only
  split
  · next hmem => exact ⟨h, .refl sw, holds_of_mem_here hmem⟩
  · next hnew =>
    refine ⟨⟨h.ahead, h.closed, h.here.concat hit hnew, h.next⟩,
      ⟨rfl, rfl, List.prefix_append _ _, List.prefix_refl _⟩, holds_of_mem_here ?_⟩
    exact List.mem_append_right _ (List.mem_singleton_self _)

theorem enqueueNext_spec (h : sw.Sound r tokens)
    (hit : r.Reaches tokens it o (sw.position + 1)) :
    (sw.enqueueNext it o).Sound r tokens ∧ sw.Grows (sw.enqueueNext it o) ∧
      (sw.enqueueNext it o).Holds ⟨it, o, sw.position + 1⟩ := by
  unfold enqueueNext
  dsimp only
  split
  · next hmem => exact ⟨h, .refl sw, holds_iff.mpr (.inr (.inr hmem))⟩
  · next hnew =>
    refine ⟨⟨h.ahead, h.closed, h.here, h.next.concat hit hnew⟩,
      ⟨rfl, rfl, List.prefix_refl _, List.prefix_append _ _⟩, holds_iff.mpr (.inr (.inr ?_))⟩
    exact List.mem_append_right _ (List.mem_singleton_self _)

theorem enterAll_spec : ∀ (rules : List Rule) {sw : Sweep}, sw.Sound r tokens →
    (∀ rule ∈ rules, r.Reaches tokens (.atStart rule) sw.position sw.position) →
    ∀ sw', sw' = rules.foldl (fun sw rule => sw.enqueueHere (Item.atStart rule) sw.position) sw →
      sw'.Sound r tokens ∧ sw.Grows sw' ∧
        ∀ rule ∈ rules, sw'.Holds ⟨.atStart rule, sw.position, sw.position⟩
  | [], sw, h, _, _, rfl => ⟨h, .refl sw, by simp⟩
  | rule :: rules, sw, h, hrules, _, rfl => by
    obtain ⟨h₁, hgr₁, hhas⟩ := enqueueHere_spec h (hrules rule List.mem_cons_self)
    have hpos := hgr₁.position
    obtain ⟨h₂, hgr₂, hall⟩ := enterAll_spec rules h₁
      (fun b hb => by rw [hpos]; exact hrules b (List.mem_cons_of_mem _ hb)) _ rfl
    rw [hpos] at hall
    refine ⟨h₂, hgr₁.trans hgr₂, fun b hb => ?_⟩
    rcases List.mem_cons.mp hb with rfl | hb
    · exact hgr₂.holds hhas
    · exact hall b hb

/-- States whose advanced items are reached here are moved on, one after the other. -/
theorem moveAll_spec : ∀ (ws : List State) {sw : Sweep}, sw.Sound r tokens →
    (∀ w ∈ ws, ∃ it', w.item.advance = .ok it' ∧ r.Reaches tokens it' w.start sw.position) →
    ∃ sw', ws.foldlM (fun (sw : Sweep) (w : State) => do
        let item ← w.item.advance
        return sw.enqueueHere item w.start) sw = (.ok sw' : Except Fault Sweep) ∧
      sw'.Sound r tokens ∧ sw.Grows sw' ∧
        ∀ w ∈ ws, sw'.Moved w sw.position
  | [], sw, h, _ => ⟨sw, rfl, h, .refl sw, by simp⟩
  | w :: ws, sw, h, hws => by
    obtain ⟨it₁, ha, hit⟩ := hws w List.mem_cons_self
    obtain ⟨h₁, hgr₁, hhas⟩ := enqueueHere_spec h hit
    have hpos := hgr₁.position
    obtain ⟨sw₂, hrun, h₂, hgr₂, hall⟩ := moveAll_spec ws h₁
      (fun b hb => by rw [hpos]; exact hws b (List.mem_cons_of_mem _ hb))
    rw [hpos] at hall
    refine ⟨sw₂, ?_, h₂, hgr₁.trans hgr₂, fun b hb => ?_⟩
    · rw [List.foldlM_cons, ha]
      exact hrun
    · rcases List.mem_cons.mp hb with rfl | hb
      · exact hgr₂.moved (moved_of_holds ha hhas)
      · exact hall b hb

/-- **The rules for a symbol are entered**, and the dot moves over it if it is nullable. -/
theorem predict_spec (h : sw.Sound r tokens) (hs : s ∈ sw.here) {symbol : Symbol}
    (hnext : s.item.next? = some symbol) (hx : r.Expands symbol) :
    ∃ sw', sw.predict r s symbol = .ok sw' ∧ sw'.Sound r tokens ∧ sw.Grows sw' ∧
      (∀ rule ∈ r.grammar.rulesFor symbol,
        sw'.Holds ⟨.atStart rule, sw.position, sw.position⟩) ∧
      (symbol ∈ r.nullable → sw'.Moved s sw.position) := by
  have hreach := h.reaches_here hs
  obtain ⟨h₁, hgr₁, hall⟩ := enterAll_spec (r.grammar.rulesFor symbol) (h.note (.predicted s))
    (fun rule hr => .predict hreach hnext hx hr) _ rfl
  have hgr₁ := (grows_note sw (.predicted s)).trans hgr₁
  unfold predict
  dsimp only
  split
  · next hnull =>
    obtain ⟨hle, ha⟩ := Item.advance_of_next? hnext
    have hmoved := Recognizer.Reaches.skip hreach hnext hx hnull ha
    rw [← hgr₁.position] at hmoved
    obtain ⟨h₂, hgr₂, hhas⟩ := enqueueHere_spec h₁ hmoved
    rw [hgr₁.position] at hhas
    exact ⟨_, by rw [ha]; rfl, h₂, hgr₁.trans hgr₂, fun rule hr => hgr₂.holds (hall rule hr),
      fun _ => moved_of_holds ha hhas⟩
  · next hnull => exact ⟨_, rfl, h₁, hgr₁, hall, fun hmem => absurd hmem hnull⟩

/-- **The dot moves over the token ahead** if the symbol behind it reads the token. -/
theorem scan_spec (h : sw.Sound r tokens) (hs : s ∈ sw.here) {symbol : Symbol}
    (hnext : s.item.next? = some symbol) (hx : ¬ r.Expands symbol) :
    ∃ sw', sw.scan r s symbol = .ok sw' ∧ sw'.Sound r tokens ∧ sw.Grows sw' ∧
      ∀ token, tokens[sw.position]? = some token → r.reads symbol token = true →
        sw'.Moved s (sw.position + 1) := by
  have h₁ := h.note (.scanned s)
  have hgr₁ := grows_note sw (.scanned s)
  have hahead : (sw.note (.scanned s)).ahead = tokens[sw.position]? := h.ahead
  unfold scan
  simp only [hahead]
  cases htoken : tokens[sw.position]? with
  | none => exact ⟨_, rfl, h₁, hgr₁, by simp⟩
  | some token =>
    dsimp only
    split
    · next hreads =>
      obtain ⟨hle, ha⟩ := Item.advance_of_next? hnext
      have hmoved := Recognizer.Reaches.scan (h.reaches_here hs) hnext hx ha htoken hreads
      obtain ⟨h₂, hgr₂, hhas⟩ := enqueueNext_spec h₁ hmoved
      exact ⟨_, by rw [ha]; rfl, h₂, hgr₁.trans hgr₂, fun _ _ _ => moved_of_holds ha hhas⟩
    · next hreads =>
      refine ⟨_, rfl, h₁, hgr₁, ?_⟩
      rintro _ heq hread
      obtain rfl := Option.some.inj heq
      exact absurd hread hreads

/-- **A complete state moves on those that wait for its left-hand side** where it starts. -/
theorem complete_spec (h : sw.Sound r tokens) (hs : s ∈ sw.here)
    (hcomp : s.item.isComplete = true) :
    ∃ sw', sw.complete s = .ok sw' ∧ sw'.Sound r tokens ∧ sw.Grows sw' ∧
      ∀ w, sw.Holds w → w.stop = s.start → w.item.next? = some s.item.lhs →
        sw'.Moved w sw.position := by
  have hreach := h.reaches_here hs
  obtain ⟨states, hset, hstates⟩ := (h.note (.completed s)).setAt (k := s.start) hreach.origin_le
  have hmem : ∀ w, w ∈ states.filter (fun w => w.item.next? = some s.item.lhs) ↔
      (sw.Holds w ∧ w.stop = s.start) ∧ w.item.next? = some s.item.lhs := by
    intro w
    rw [List.mem_filter, hstates, decide_eq_true_eq]
    rfl
  have hwait : ∀ w ∈ states.filter (fun w => w.item.next? = some s.item.lhs), ∃ it',
      w.item.advance = .ok it' ∧ r.Reaches tokens it' w.start sw.position := by
    intro w hw
    obtain ⟨⟨hw, hstop⟩, hnext⟩ := (hmem w).mp hw
    obtain ⟨hle, ha⟩ := Item.advance_of_next? hnext
    have hwaits := h.reaches hw
    rw [hstop] at hwaits
    exact ⟨_, ha, .complete hwaits hnext ha hreach hcomp⟩
  obtain ⟨sw', hrun, h', hgr, hall⟩ := moveAll_spec _ (h.note (.completed s)) hwait
  refine ⟨sw', ?_, h', (grows_note sw _).trans hgr, fun w hw hstop hnext => ?_⟩
  · unfold complete
    simp only [bind, Except.bind, hset]
    exact hrun
  · exact hall w ((hmem w).mpr ⟨⟨hw, hstop⟩, hnext⟩)

end Sweep

end Parsing
