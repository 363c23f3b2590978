/-
# Closing a set

Closing works through the states of the present set, also through those that arrive
meanwhile, and every state that has been worked on is settled: the rules for the symbol
after its dot have been entered, it has moved over the symbol if that is nullable or
reads the token ahead, and if it is complete, the states that wait for its left-hand
side where it starts have moved on.

Of complete states only those that stop behind their start are told of. The states they move
stand in a set that grows no more, so none arrives too late. Where a state is complete at
its own start, states that wait for it may well arrive after it; but then its left-hand side
is nullable, and they move on by themselves.

The states of a set differ in their items or starts, so the budget of a closure is never used
up before the states are.

Key definitions: `Sweep.Settled`.
Key theorems: `Sweep.visit_of_waits`, `Sweep.visit_spec`, `Sweep.length_here_le`,
`Sweep.close_spec`.
-/
import Parsing.Proofs.Chart.Sound

namespace Parsing.Sweep

variable {r : Recognizer} {tokens : List String} {sw sw' : Sweep} {s : State}

/-! ### Working on one state -/

/-- What is there once the state has been worked on. -/
structure Settled (r : Recognizer) (tokens : List String) (sw : Sweep) (s : State) : Prop where
  entered : ∀ symbol, s.item.next? = some symbol → r.Expands symbol →
    ∀ rule ∈ r.grammar.rulesFor symbol, sw.Holds ⟨.atStart rule, s.stop, s.stop⟩
  skipped : ∀ symbol, s.item.next? = some symbol → r.Expands symbol → symbol ∈ r.nullable →
    sw.Moved s s.stop
  scanned : ∀ symbol, s.item.next? = some symbol → ¬ r.Expands symbol →
    ∀ token, tokens[s.stop]? = some token → r.reads symbol token = true → sw.Moved s (s.stop + 1)
  completed : s.item.isComplete = true → s.start < s.stop → ∀ w, sw.Holds w → w.stop = s.start →
    w.item.next? = some s.item.lhs → sw.Moved w s.stop

/-- A state stays settled while states arrive that stop no earlier than it. -/
theorem Settled.mono (h : sw.Settled r tokens s) (hold : ∀ w, sw.Holds w → sw'.Holds w)
    (hback : ∀ w, w.stop < s.stop → sw'.Holds w → sw.Holds w) : sw'.Settled r tokens s where
  entered symbol hs hx rule hr := hold _ (h.entered symbol hs hx rule hr)
  skipped symbol hs hx hnull it' ha := hold _ (h.skipped symbol hs hx hnull it' ha)
  scanned symbol hs hx token ht hread it' ha :=
    hold _ (h.scanned symbol hs hx token ht hread it' ha)
  completed hc hlt w hw hstop hs it' ha :=
    hold _ (h.completed hc hlt w (hback w (by omega) hw) hstop hs it' ha)

/-- At one position, no state arrives that stops earlier. -/
theorem Grows.holds_iff_of_lt (hgr : sw.Grows sw') (h : sw.Sound r tokens)
    (h' : sw'.Sound r tokens) (hlt : s.stop < sw.position) : sw'.Holds s ↔ sw.Holds s := by
  rw [h.holds_of_lt hlt, h'.holds_of_lt (by rwa [hgr.position]), hgr.closed]

theorem Settled.grows (hs : sw.Settled r tokens s) (hgr : sw.Grows sw')
    (h : sw.Sound r tokens) (h' : sw'.Sound r tokens) (hle : s.stop ≤ sw.position) :
    sw'.Settled r tokens s :=
  hs.mono (fun _ => hgr.holds) fun _ hlt => (hgr.holds_iff_of_lt h h' (by omega)).mp

theorem settled_of_complete (hnext : s.item.next? = none)
    (hmoved : s.start < s.stop → ∀ w, sw.Holds w → w.stop = s.start →
      w.item.next? = some s.item.lhs → sw.Moved w s.stop) : sw.Settled r tokens s := by
  refine ⟨?_, ?_, ?_, fun _ => hmoved⟩ <;> simp [hnext]

theorem settled_of_waits {symbol : Symbol} (hnext : s.item.next? = some symbol)
    (hrules : r.Expands symbol → ∀ rule ∈ r.grammar.rulesFor symbol,
      sw.Holds ⟨.atStart rule, s.stop, s.stop⟩)
    (hskip : r.Expands symbol → symbol ∈ r.nullable → sw.Moved s s.stop)
    (hscan : ¬ r.Expands symbol → ∀ token, tokens[s.stop]? = some token →
      r.reads symbol token = true → sw.Moved s (s.stop + 1)) : sw.Settled r tokens s := by
  have hsymbol : ∀ {other : Symbol}, s.item.next? = some other → symbol = other :=
    fun hother => Option.some.inj (hnext.symm.trans hother)
  refine ⟨fun _ hs => ?_, fun _ hs => ?_, fun _ hs => ?_, fun hc => ?_⟩
  · exact hsymbol hs ▸ hrules
  · exact hsymbol hs ▸ hskip
  · exact hsymbol hs ▸ hscan
  · rw [Item.isComplete_iff, hnext] at hc
    cases hc

theorem visit_of_waits {symbol : Symbol} (hnext : s.item.next? = some symbol) :
    sw.visit r s = if r.Expands symbol then sw.predict r s symbol else sw.scan r s symbol := by
  unfold visit Recognizer.Expands
  simp only [hnext]
  by_cases hc : r.lexicon.isCategory symbol = true
  · simp [hc]
  · by_cases hn : r.grammar.isNonterminal symbol = true <;> simp [hc, hn]

/-- **A state of the present set gets worked on.** -/
theorem visit_spec (h : sw.Sound r tokens) (hs : s ∈ sw.here) :
    ∃ sw', sw.visit r s = .ok sw' ∧ sw'.Sound r tokens ∧ sw.Grows sw' ∧
      sw'.Settled r tokens s := by
  have hstop := h.here.stop s hs
  cases hnext : s.item.next? with
  | none =>
    obtain ⟨sw', hrun, h', hgr, hmoved⟩ := complete_spec h hs (Item.isComplete_iff.mpr hnext)
    refine ⟨sw', by simp only [visit, hnext, hrun], h', hgr, ?_⟩
    refine settled_of_complete hnext fun hlt w hw hws => ?_
    rw [hstop] at hlt ⊢
    exact hmoved w ((hgr.holds_iff_of_lt h h' (by omega)).mp hw) hws
  | some symbol =>
    rw [visit_of_waits hnext]
    by_cases hx : r.Expands symbol
    · obtain ⟨sw', hrun, h', hgr, hrules, hskip⟩ := predict_spec h hs hnext hx
      rw [← hstop] at hrules hskip
      rw [if_pos hx]
      exact ⟨sw', hrun, h', hgr, settled_of_waits hnext (fun _ => hrules) (fun _ => hskip)
        fun hnot => absurd hx hnot⟩
    · obtain ⟨sw', hrun, h', hgr, hscan⟩ := scan_spec h hs hnext hx
      rw [← hstop] at hscan
      rw [if_neg hx]
      exact ⟨sw', hrun, h', hgr, settled_of_waits hnext (fun hpos => absurd hpos hx)
        (fun hpos => absurd hpos hx) fun _ => hscan⟩

/-! ### Working through the set -/

/-- **There are no more states in a set than items at each start.** -/
theorem length_here_le (h : sw.Sound r tokens) :
    sw.here.length ≤ (sw.position + 1) * r.grammar.itemCount := by
  have hreach : ∀ it o, (it, o) ∈ sw.here.map State.slot →
      r.Reaches tokens it o sw.position := by
    intro it o hmem
    obtain ⟨s, hs, hslot⟩ := List.mem_map.mp hmem
    obtain ⟨rfl, rfl⟩ : s.item = it ∧ s.start = o := Prod.mk.inj hslot
    exact h.reaches_here hs
  have hle := Recognizer.Reaches.length_slots_le h.here.nodup_slots hreach
  rwa [List.length_map] at hle

/-- Working through the states from a cursor on never runs out of budget. -/
theorem closeFrom_spec : ∀ (budget cursor : Nat) {sw : Sweep}, sw.Sound r tokens →
    (∀ s ∈ sw.here.take cursor, sw.Settled r tokens s) →
    (sw.position + 1) * r.grammar.itemCount ≤ budget + cursor →
    ∃ sw', closeFrom r budget cursor sw = .ok sw' ∧ sw'.Sound r tokens ∧ sw.Grows sw' ∧
      ∀ s ∈ sw'.here, sw'.Settled r tokens s
  | 0, cursor, sw, h, hdone, hb => by
    have hlen := length_here_le h
    have hle : sw.here.length ≤ cursor := by omega
    rw [List.take_of_length_le hle] at hdone
    exact ⟨sw, by rw [closeFrom, if_pos hle], h, .refl sw, hdone⟩
  | budget + 1, cursor, sw, h, hdone, hb => by
    unfold closeFrom
    cases hget : sw.here[cursor]? with
    | none =>
      rw [List.take_of_length_le (List.getElem?_eq_none_iff.mp hget)] at hdone
      exact ⟨sw, rfl, h, .refl sw, hdone⟩
    | some s =>
      obtain ⟨sw₁, hrun₁, h₁, hgr₁, hset₁⟩ := visit_spec h (List.mem_of_getElem? hget)
      have hdone₁ : ∀ b ∈ sw₁.here.take (cursor + 1), sw₁.Settled r tokens b := by
        intro b hb
        rw [take_succ_of_isPrefix hgr₁.here hget] at hb
        rcases List.mem_append.mp hb with hb | hb
        · have hstop := h.here.stop b (List.mem_of_mem_take hb)
          exact (hdone b hb).grows hgr₁ h h₁ (Nat.le_of_eq hstop)
        · rw [List.mem_singleton.mp hb]
          exact hset₁
      obtain ⟨sw₂, hrun₂, h₂, hgr₂, hset₂⟩ :=
        closeFrom_spec budget (cursor + 1) h₁ hdone₁ (by rw [hgr₁.position]; omega)
      refine ⟨sw₂, ?_, h₂, hgr₁.trans hgr₂, hset₂⟩
      simp only [bind, Except.bind, hrun₁]
      exact hrun₂

/-- **A set gets closed**, and every state of it is settled. -/
theorem close_spec (h : sw.Sound r tokens) :
    ∃ sw', sw.close r = .ok sw' ∧ sw'.Sound r tokens ∧ sw.Grows sw' ∧
      ∀ s ∈ sw'.here, sw'.Settled r tokens s :=
  closeFrom_spec _ 0 h (by simp) (Nat.le_refl _)

end Parsing.Sweep
