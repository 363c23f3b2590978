/-
# Exact charts

Recognition never fails, whatever the grammar and the lexicon, and every state of its chart is one
that it reaches. On the way a sweep keeps that all states which stop before the present position
are settled.

If the symbols of what is complete where it starts can be skipped, the chart is exact: the set of
a position holds all states that are reached there. The proof is an induction over the way in
which an item is reached, and only a completion needs an argument. If the complete item stops
behind its start, its state has moved on those that wait for it. If it stops where it starts, its
left-hand side is nullable, so the waiting state has moved over that symbol when it was worked on
itself.

Where no category has rules, what is reached is what fits the tokens in the reading by the lexicon.

Key definitions: `Sweep.Passed`, `Sweep.Finished`, `Chart.Exact`.
Key theorems: `Sweep.walk_spec`, `Sweep.Finished.holds`, `Grammar.chart_ends`,
`Grammar.chart_reaches`, `Grammar.chart_spec`.
-/
import Mathlib.Data.List.Flatten
import Parsing.Proofs.Chart.Closed
import Parsing.Proofs.Chart.Reading

namespace Parsing

variable {r : Recognizer} {g : Grammar} {lex : Lexicon} {tokens : List String}

namespace Sweep

variable {sw sw' : Sweep} {s : State}

/-! ### Passing tokens -/

/-- What a sweep keeps from one position to the next. -/
structure Passed (r : Recognizer) (tokens : List String) (sw : Sweep) : Prop where
  sound : sw.Sound r tokens
  entered : sw.Holds ⟨.atStart r.grammar.startRule, 0, 0⟩
  settled : ∀ s, sw.Holds s → s.stop < sw.position → sw.Settled r tokens s

/-- Work on the present set leaves what has been passed as it is. -/
theorem Passed.grows (h : sw.Passed r tokens) (h' : sw'.Sound r tokens)
    (hgr : sw.Grows sw') : sw'.Passed r tokens where
  sound := h'
  entered := hgr.holds h.entered
  settled s hs hlt := by
    rw [hgr.position] at hlt
    have hs := (hgr.holds_iff_of_lt h.sound h' hlt).mp hs
    exact (h.settled s hs hlt).grows hgr h.sound h' (Nat.le_of_lt hlt)

theorem passed_start (r : Recognizer) (tokens : List String) :
    (start r.grammar tokens).Passed r tokens := by
  have hfresh : Sound r tokens ⟨tokens.head?, [], [], [], []⟩ :=
    ⟨List.head?_eq_getElem?, by simp, .nil, .nil⟩
  obtain ⟨h, hgr, hentered⟩ := enqueueHere_spec hfresh Recognizer.Reaches.start
  have hpos : (start r.grammar tokens).position = 0 := hgr.position
  refine ⟨h, hentered, fun s _ hlt => ?_⟩
  rw [hpos] at hlt
  exact absurd hlt (Nat.not_lt_zero _)

theorem position_shift (sw : Sweep) (ahead : Option String) :
    (sw.shift ahead).position = sw.position + 1 := by
  simp [shift, position]

theorem holds_shift {ahead : Option String} : (sw.shift ahead).Holds s ↔ sw.Holds s := by
  simp [Holds, shift]

theorem Sound.shift (h : sw.Sound r tokens) :
    (sw.shift tokens[sw.position + 1]?).Sound r tokens where
  ahead := by
    rw [position_shift]
    rfl
  closed k states hk := by
    change (sw.closed ++ [sw.here])[k]? = some states at hk
    by_cases hlt : k < sw.closed.length
    · rw [List.getElem?_append_left hlt] at hk
      exact h.closed k states hk
    · rw [List.getElem?_append_right (by omega), List.getElem?_singleton] at hk
      split at hk
      · obtain rfl : k = sw.position := by unfold position; omega
        exact Option.some.inj hk ▸ h.here
      · cases hk
  here := by
    rw [position_shift]
    exact h.next
  next := .nil

/-- **A token is passed** when the present set is closed. -/
theorem Passed.shift (h : sw.Passed r tokens)
    (hclose : ∀ s ∈ sw.here, sw.Settled r tokens s) :
    (sw.shift tokens[sw.position + 1]?).Passed r tokens where
  sound := h.sound.shift
  entered := holds_shift.mpr h.entered
  settled s hs hlt := by
    rw [holds_shift] at hs
    rw [position_shift] at hlt
    have hset : sw.Settled r tokens s := by
      rcases Nat.lt_succ_iff_lt_or_eq.mp hlt with hlt | heq
      · exact h.settled s hs hlt
      · exact hclose s ((h.sound.holds_of_eq heq).mp hs)
    exact hset.mono (fun _ => holds_shift.mpr) fun _ _ => holds_shift.mp

/-- What a sweep keeps when it has passed all tokens and closed its last set. -/
structure Finished (r : Recognizer) (tokens : List String) (sw : Sweep) : Prop where
  sound : sw.Sound r tokens
  entered : sw.Holds ⟨.atStart r.grammar.startRule, 0, 0⟩
  settled : ∀ s, sw.Holds s → sw.Settled r tokens s
  position : sw.position = tokens.length

theorem Passed.finished (h : sw.Passed r tokens)
    (hclose : ∀ s ∈ sw.here, sw.Settled r tokens s) (hpos : sw.position = tokens.length) :
    sw.Finished r tokens where
  sound := h.sound
  entered := h.entered
  settled s hs := by
    have hle : s.stop ≤ sw.position := hpos ▸ (h.sound.reaches hs).stop_le
    rcases Nat.lt_or_eq_of_le hle with hlt | heq
    · exact h.settled s hs hlt
    · exact hclose s ((h.sound.holds_of_eq heq).mp hs)
  position := hpos

/-- **All tokens are passed**, and nothing fails on the way. -/
theorem walk_spec : ∀ (rest front : List String) {sw : Sweep}, tokens = front ++ rest →
    sw.position = front.length → sw.Passed r tokens →
    ∃ sw', walk r rest sw = .ok sw' ∧ sw'.Finished r tokens
  | [], front, sw, ht, hpos, h => by
    obtain ⟨sw₁, hrun₁, h₁, hgr₁, hclose⟩ := close_spec h.sound
    refine ⟨sw₁, hrun₁, (h.grows h₁ hgr₁).finished hclose ?_⟩
    rw [hgr₁.position, hpos, ht, List.append_nil]
  | token :: rest, front, sw, ht, hpos, h => by
    obtain ⟨sw₁, hrun₁, h₁, hgr₁, hclose⟩ := close_spec h.sound
    have hpos₁ : sw₁.position = front.length := hgr₁.position.trans hpos
    have hahead : tokens[sw₁.position + 1]? = rest.head? := getElem?_ahead ht hpos₁
    have hnext := (h.grows h₁ hgr₁).shift hclose
    rw [hahead] at hnext
    obtain ⟨sw₂, hrun₂, h₂⟩ := walk_spec rest (front ++ [token]) (by simpa using ht)
      (by rw [position_shift, hpos₁]; simp) hnext
    refine ⟨sw₂, ?_, h₂⟩
    unfold walk
    simp only [bind, Except.bind, hrun₁]
    exact hrun₂

/-! ### Completeness -/

/-- **Every item that is reached is there**, if what is complete where it starts can be skipped. -/
theorem Finished.holds (h : sw.Finished r tokens) (hskip : r.Skips tokens) {it : Item} {o i : Nat}
    (hreach : r.Reaches tokens it o i) : sw.Holds ⟨it, o, i⟩ := by
  induction hreach with
  | start => exact h.entered
  | predict _ hs hx hr ih => exact (h.settled _ ih).entered _ hs hx _ hr
  | skip _ hs hx hn ha ih => exact (h.settled _ ih).skipped _ hs hx hn _ ha
  | scan _ hs hx ha ht hread ih => exact (h.settled _ ih).scanned _ hs hx _ ht hread _ ha
  | @complete it it' done o k i hw hs ha hd hc ih ihd =>
    rcases Nat.lt_or_eq_of_le hd.origin_le with hlt | rfl
    · exact (h.settled _ ihd).completed hc hlt _ ih rfl hs _ ha
    · obtain ⟨hx, hn⟩ := hskip it done o k hw hs hd hc
      exact (h.settled _ ih).skipped _ hs hx hn _ ha

end Sweep

/-! ### The result -/

/-- What recognition leaves, told by the items of which `P` holds from where they start to where
they stop. -/
structure Chart.Exact (P : Item → Nat → Nat → Prop) (g : Grammar) (tokens : List String)
    (c : Chart) : Prop where
  positions : c.sets.length = tokens.length + 1
  placed : ∀ (i : Nat) (states : List State), c.sets[i]? = some states → Placed P i states
  has : ∀ s : State, P s.item s.start s.stop →
    ∃ states, c.sets[s.stop]? = some states ∧ s ∈ states
  accepted : c.accepted = true ↔ ∃ done, P done 0 tokens.length ∧ done.isComplete = true ∧
    done.lhs = g.start

namespace Chart.Exact

variable {P Q : Item → Nat → Nat → Prop} {c : Chart}

theorem mem_iff (h : c.Exact P g tokens) {i : Nat} {states : List State}
    (hi : c.sets[i]? = some states) {s : State} :
    s ∈ states ↔ s.stop = i ∧ P s.item s.start i := by
  have hplaced := h.placed i states hi
  constructor
  · intro hs
    have hspans := hplaced.spans s hs
    rw [hplaced.stop s hs] at hspans
    exact ⟨hplaced.stop s hs, hspans⟩
  · rintro ⟨rfl, hspans⟩
    obtain ⟨states', hi', hs⟩ := h.has s hspans
    rwa [Option.some.inj (hi.symm.trans hi')]

theorem mem_slots_iff (h : c.Exact P g tokens) {i : Nat} {states : List State}
    (hi : c.sets[i]? = some states) {it : Item} {o : Nat} :
    (it, o) ∈ states.map State.slot ↔ P it o i := by
  constructor
  · intro hmem
    obtain ⟨s, hs, hslot⟩ := List.mem_map.mp hmem
    obtain ⟨rfl, rfl⟩ : s.item = it ∧ s.start = o := Prod.mk.inj hslot
    exact ((h.mem_iff hi).mp hs).2
  · exact fun hspans => List.mem_map.mpr ⟨⟨it, o, i⟩, (h.mem_iff hi).mpr ⟨rfl, hspans⟩, rfl⟩

/-- No state is there twice: not in one set, and not in two, for it stops at one position. -/
theorem nodup_flatten (h : c.Exact P g tokens) : c.sets.flatten.Nodup := by
  refine List.nodup_flatten.mpr ⟨fun states hmem => ?_, ?_⟩
  · obtain ⟨k, hk⟩ := List.mem_iff_getElem?.mp hmem
    exact (h.placed k states hk).distinct
  · refine List.pairwise_iff_getElem.mpr fun i j hi hj hij s hsi hsj => ?_
    have hstop := (h.placed i _ (List.getElem?_eq_getElem hi)).stop s hsi
    have hstop' := (h.placed j _ (List.getElem?_eq_getElem hj)).stop s hsj
    omega

theorem congr (h : c.Exact P g tokens) (hPQ : ∀ it o i, P it o i ↔ Q it o i) :
    c.Exact Q g tokens := by
  obtain rfl : P = Q := funext fun it => funext fun o => funext fun i => propext (hPQ it o i)
  exact h

end Chart.Exact

/-- The sets are those that one more token would leave behind. -/
theorem Sweep.Finished.placed {sw : Sweep} (h : sw.Finished r tokens) {i : Nat}
    {states : List State} (hi : (sw.closed ++ [sw.here])[i]? = some states) :
    Placed (r.Reaches tokens) i states :=
  h.sound.shift.closed i states hi

theorem Sweep.Finished.length_sets {sw : Sweep} (h : sw.Finished r tokens) :
    (sw.closed ++ [sw.here]).length = tokens.length + 1 :=
  (sw.position_shift tokens[sw.position + 1]?).trans (congrArg (· + 1) h.position)

theorem Sweep.Finished.exact {sw : Sweep} (h : sw.Finished r tokens) (hskip : r.Skips tokens) :
    (sw.result r.grammar tokens).Exact (r.Reaches tokens) r.grammar tokens := by
  have hshift := h.sound.shift
  have hpos := sw.position_shift tokens[sw.position + 1]?
  refine ⟨h.length_sets, fun i states hi => h.placed hi, fun s hreach => ?_, ?_⟩
  · have hlt : s.stop < (sw.shift tokens[sw.position + 1]?).position := by
      have := hreach.stop_le
      rw [hpos, h.position]
      omega
    exact hshift.mem_closed_iff.mp
      ((hshift.holds_of_lt hlt).mp (holds_shift.mpr (h.holds hskip hreach)))
  · simp only [result, List.any_eq_true, Bool.and_eq_true, decide_eq_true_eq]
    constructor
    · rintro ⟨s, hs, ⟨ho, hc⟩, hl⟩
      have hreach := h.sound.reaches_here hs
      rw [ho, h.position] at hreach
      exact ⟨s.item, hreach, hc, hl⟩
    · rintro ⟨done, hd, hc, hl⟩
      exact ⟨_, (h.sound.holds_of_eq h.position.symm).mp (h.holds hskip hd), ⟨rfl, hc⟩, hl⟩

/-- **Recognition never fails**, whatever the grammar and the lexicon. -/
theorem Grammar.chart_ends (g : Grammar) (lex : Lexicon) (tokens : List String) :
    ∃ sw : Sweep, g.chart lex tokens = .ok (sw.result g tokens) ∧
      sw.Finished (g.recognizer lex) tokens := by
  obtain ⟨sw, hrun, h⟩ := Sweep.walk_spec tokens [] rfl rfl
    (Sweep.passed_start (g.recognizer lex) tokens)
  refine ⟨sw, ?_, h⟩
  unfold chart
  simp only [bind, Except.bind, hrun]
  rfl

/-- **A chart has all that is reached**, if the grammar does not mention the reserved symbol. -/
theorem Grammar.chart_reaches (hg : g.Unmarked) (lex : Lexicon) (tokens : List String) :
    ∃ c, g.chart lex tokens = .ok c ∧
      c.Exact ((g.recognizer lex).Reaches tokens) g tokens := by
  obtain ⟨sw, hrun, h⟩ := g.chart_ends lex tokens
  exact ⟨_, hrun, h.exact (Grammar.recognizer_skips hg lex tokens)⟩

/-- **A chart has all that fits**, if also no category has rules. -/
theorem Grammar.chart_spec (hg : g.Unmarked) (hlex : lex.Apart g) (tokens : List String) :
    ∃ c, g.chart lex tokens = .ok c ∧ c.Exact (Fits g (g.lexical lex) tokens) g tokens := by
  obtain ⟨c, hc, hexact⟩ := Grammar.chart_reaches hg lex tokens
  exact ⟨c, hc, hexact.congr fun _ _ _ => Grammar.reaches_iff_fits hg hlex⟩

end Parsing
