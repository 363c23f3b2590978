/-
# The stages of a parse

A parse goes on in steps: it works on the next entry of the present column, which may make the
column longer, and when there is none, it passes the token ahead. So a stage of a parse is a run
together with a cursor, the number of entries worked on at the present position. No budget comes
in here: what a parse returns is what it has at a stage without next step.

Every stage that is reached keeps what has been passed and what the entries before the cursor
have called for (`Stage.Kept`). So nothing that a step asks for is refused: every entry is
placed where its node is, dots move within their rules, spans are in order, families tile, and
behind the last token no entry waits for another one.

Key definitions: `Stage`, `Stage.Step`, `Stage.Reached`, `Stage.Done`, `Entry.Placed`,
`Forest.Tiled`.
Key theorems: `Stage.Reached.kept`, `Stage.Reached.walk`, `Grammar.parse_reaches`,
`Grammar.parse_meets_no_fault`.
-/
import Parsing.Proofs.Parse.Exact

namespace Parsing

/-- A parse under way, and how many entries of the present column have been worked on. -/
structure Stage where
  run : Run
  cursor : Nat

variable {g : Grammar} {tokens : List Symbol} {k : Nat} {s s' : Stage}

namespace Stage

/-- The entry to be worked on next. -/
def entry? (s : Stage) : Option Entry := s.run.column.entries[s.cursor]?

/-- The stage before the first step. -/
def first (g : Grammar) (tokens : List Symbol) : Stage := ⟨Run.start g tokens, 0⟩

/-- One step of a parse. -/
inductive Step (g : Grammar) (tokens : List Symbol) : Stage → Stage → Prop
  | visit {s : Stage} {e : Entry} {run : Run} (he : s.entry? = some e)
      (hrun : s.run.visit g s.cursor e = .ok run) : Step g tokens s ⟨run, s.cursor + 1⟩
  | shift {s : Stage} {t : Symbol} {run : Run} (hend : s.entry? = none)
      (ht : tokens[s.run.position]? = some t)
      (hrun : s.run.shift t tokens[s.run.position + 1]? = .ok run) : Step g tokens s ⟨run, 0⟩

/-- Whether `k` steps lead from the first stage to the given one. -/
inductive Reached (g : Grammar) (tokens : List Symbol) : Nat → Stage → Prop
  | first : Reached g tokens 0 (first g tokens)
  | step {k : Nat} {s s' : Stage} (h : Reached g tokens k s) (hs : Step g tokens s s') :
      Reached g tokens (k + 1) s'

/-- Whether all tokens are passed and all entries worked on. -/
def Done (tokens : List Symbol) (s : Stage) : Prop :=
  s.entry? = none ∧ s.run.position = tokens.length

/-! ### What the steps keep -/

/-- What every stage of a parse keeps. -/
structure Kept (g : Grammar) (tokens : List Symbol) (s : Stage) : Prop where
  passed : s.run.Passed g tokens
  closing : s.run.Closing g (s.run.worked s.cursor)
  cursor_le : s.cursor ≤ s.run.column.entries.length
  position_le : s.run.position ≤ tokens.length

theorem kept_first (g : Grammar) (tokens : List Symbol) : (first g tokens).Kept g tokens where
  passed := Run.passed_start g tokens
  closing := Run.closing_nil g _
  cursor_le := Nat.zero_le _
  position_le := Nat.zero_le _

theorem Kept.closed (h : s.Kept g tokens) (hend : s.entry? = none) :
    s.run.Closing g (s.run.column.entries.map Entry.slot) := by
  have hclose := h.closing
  rwa [Run.worked_of_length_le (List.getElem?_eq_none_iff.mp hend)] at hclose

/-- **The next entry can be worked on.** -/
theorem Kept.visit (h : s.Kept g tokens) {e : Entry} (he : s.entry? = some e) :
    ∃ run, s.run.visit g s.cursor e = .ok run ∧ s.run.Grows run ∧
      Kept g tokens ⟨run, s.cursor + 1⟩ := by
  obtain ⟨run, hrun, hs, hgr, hclose⟩ := Run.visit_next_spec h.passed.sound h.closing he
  have hlt : s.cursor < s.run.column.entries.length := (List.getElem?_eq_some_iff.mp he).1
  refine ⟨run, hrun, hgr, h.passed.grows hs hgr, hclose, ?_, ?_⟩
  · exact Nat.le_trans hlt hgr.column.length_le
  · exact hgr.position.symm ▸ h.position_le

/-- **The token ahead can be passed** behind the last entry. -/
theorem Kept.shift (h : s.Kept g tokens) (hend : s.entry? = none) {t : Symbol}
    (ht : tokens[s.run.position]? = some t) :
    ∃ run, s.run.shift t tokens[s.run.position + 1]? = .ok run ∧
      run.position = s.run.position + 1 ∧ Kept g tokens ⟨run, 0⟩ := by
  obtain ⟨run, hrun, hpassed, hpos⟩ := Run.shift_spec h.passed (h.closed hend) ht
  have hlt : s.run.position < tokens.length := (List.getElem?_eq_some_iff.mp ht).1
  refine ⟨run, hrun, hpos, hpassed, Run.closing_nil g run, Nat.zero_le _, ?_⟩
  show run.position ≤ tokens.length
  omega

theorem Kept.step (h : s.Kept g tokens) (hs : Step g tokens s s') : s'.Kept g tokens := by
  cases hs with
  | visit he hrun =>
    obtain ⟨run, hrun', -, hkept⟩ := h.visit he
    obtain rfl := Except.ok.inj (hrun.symm.trans hrun')
    exact hkept
  | shift hend ht hrun =>
    obtain ⟨run, hrun', -, hkept⟩ := h.shift hend ht
    obtain rfl := Except.ok.inj (hrun.symm.trans hrun')
    exact hkept

/-- **Every stage that is reached keeps this.** -/
theorem Reached.kept (h : Reached g tokens k s) : s.Kept g tokens := by
  induction h with
  | first => exact kept_first g tokens
  | step _ hs ih => exact ih.step hs

/-! ### Parses and their stages -/

/-- Closing a column leads to a stage at the same position. -/
theorem Reached.closeFrom : ∀ (budget cursor : Nat) {k : Nat} {run run' : Run},
    Reached g tokens k ⟨run, cursor⟩ → Run.closeFrom g budget cursor run = .ok run' →
    run'.position = run.position ∧
      ∃ k' cursor', Reached g tokens k' ⟨run', cursor'⟩ ∧ entry? ⟨run', cursor'⟩ = none
  | 0, cursor, k, run, run', h, hrun => by
    unfold Run.closeFrom at hrun
    split at hrun
    · next hle =>
      obtain rfl := Except.ok.inj hrun
      exact ⟨rfl, k, cursor, h, List.getElem?_eq_none_iff.mpr hle⟩
    · cases hrun
  | budget + 1, cursor, k, run, run', h, hrun => by
    unfold Run.closeFrom at hrun
    split at hrun
    · next hend =>
      obtain rfl := Except.ok.inj hrun
      exact ⟨rfl, k, cursor, h, hend⟩
    · next e he =>
      obtain ⟨run₁, hrun₁, hgr, -⟩ := h.kept.visit he
      simp only [bind, Except.bind, hrun₁] at hrun
      obtain ⟨hpos, hreached⟩ := (Reached.step h (.visit he hrun₁)).closeFrom budget _ hrun
      exact ⟨hpos.trans hgr.position, hreached⟩

/-- **Going through the tokens leads to a stage where nothing is left to be done.** -/
theorem Reached.walk : ∀ (rest front : List Symbol) {k : Nat} {run run' : Run},
    tokens = front ++ rest → run.position = front.length → Reached g tokens k ⟨run, 0⟩ →
    Run.walk g rest run = .ok run' →
    ∃ k' cursor', Reached g tokens k' ⟨run', cursor'⟩ ∧ Done tokens ⟨run', cursor'⟩
  | [], front, k, run, run', ht, hpos, h, hrun => by
    obtain ⟨hpos', k', cursor', h', hend⟩ := h.closeFrom _ _ hrun
    refine ⟨k', cursor', h', hend, ?_⟩
    rw [ht, List.append_nil]
    exact hpos'.trans hpos
  | token :: rest, front, k, run, run', ht, hpos, h, hrun => by
    obtain ⟨run₁, hrun₁, -⟩ := Run.close_spec h.kept.passed.sound
    obtain ⟨hpos₁, k₁, cursor₁, h₁, hend⟩ := h.closeFrom _ _ hrun₁
    have hpos₁ : run₁.position = front.length := hpos₁.trans hpos
    have htoken : tokens[run₁.position]? = some token := getElem?_behind ht hpos₁
    have hahead : tokens[run₁.position + 1]? = rest.head? := getElem?_ahead ht hpos₁
    obtain ⟨run₂, hrun₂, hpos₂, -⟩ := h₁.kept.shift hend htoken
    have h₂ : Reached g tokens (k₁ + 1) ⟨run₂, 0⟩ := .step h₁ (.shift hend htoken hrun₂)
    unfold Run.walk at hrun
    rw [hahead] at hrun₂
    simp only [bind, Except.bind, hrun₁, hrun₂] at hrun
    refine Reached.walk rest (front ++ [token]) (by simpa using ht) ?_ h₂ hrun
    rw [hpos₂, hpos₁, List.length_append, List.length_singleton]

end Stage

/-- **A parse returns what it has at its last stage**, and at once if there are no tokens. -/
theorem Grammar.parse_reaches (g : Grammar) (tokens : List Symbol) :
    ∃ p, g.parse tokens = .ok p ∧ (tokens ≠ [] → ∃ k s, Stage.Reached g tokens k s ∧
      s.Done tokens ∧ p = s.run.result g) := by
  unfold parse
  by_cases hne : tokens.isEmpty
  · rw [if_pos hne]
    exact ⟨_, rfl, fun h => absurd (List.isEmpty_iff.mp hne) h⟩
  · obtain ⟨run, hrun, -⟩ := Run.walk_spec tokens [] rfl rfl (Run.passed_start g tokens)
    obtain ⟨k, cursor, h, hdone⟩ := Stage.Reached.walk tokens [] rfl rfl .first hrun
    refine ⟨run.result g, ?_, fun _ => ⟨k, ⟨run, cursor⟩, h, hdone, rfl⟩⟩
    rw [if_neg hne]
    simp only [bind, Except.bind, hrun]
    rfl

/-! ### What a step meets -/

/-- Whether the entry began at a position that has a column, and has the node that it may have: with
its dot at the start it began here and has none unless it is complete; otherwise it has one; and any
node of it spans what it has recognised. -/
structure Entry.Placed (f : Forest) (pos : Nat) (e : Entry) : Prop where
  origin_le : e.origin ≤ pos
  bare : e.item.dot = 0 → e.origin = pos ∧ (e.item.isComplete = false → e.node? = none)
  exists_node : e.item.dot ≠ 0 → ∃ id, e.node? = some id
  spans : ∀ id, e.node? = some id → ∃ n, f.nodes[id]? = some n ∧ n.key.start = e.origin ∧
    n.key.stop = pos

theorem Entry.Sound.placed {f : Forest} {pos : Nat} {e : Entry} (h : e.Sound g tokens f pos) :
    e.Placed f pos where
  origin_le := h.fits.origin_le
  bare hd := by
    refine ⟨h.fits.origin_eq hd, fun hc => ?_⟩
    cases hs : e.item.next? with
    | none =>
      rw [Item.isComplete_iff.mpr hs] at hc
      cases hc
    | some s => exact (h.fresh hs).bare hd
  exists_node := h.exists_node
  spans id hid := by
    obtain ⟨n, hn, hnkey⟩ := Forest.key?_eq_some_iff.mp (h.key id hid)
    exact ⟨n, hn, by rw [hnkey], by rw [hnkey]⟩

/-- Whether no node ends before it starts, and the children of every family are nodes that tile
the span of theirs. -/
structure Forest.Tiled (f : Forest) : Prop where
  forward : ∀ n ∈ f.nodes, n.key.start ≤ n.key.stop
  right : ∀ n ∈ f.nodes, ∀ fam ∈ n.families, ∃ right, f.nodes[fam.right]? = some right ∧
    right.key.stop = n.key.stop ∧ (fam.left? = none → right.key.start = n.key.start)
  left : ∀ n ∈ f.nodes, ∀ fam ∈ n.families, ∀ l, fam.left? = some l → ∃ left right,
    f.nodes[l]? = some left ∧ f.nodes[fam.right]? = some right ∧
      left.key.start = n.key.start ∧ left.key.stop = right.key.start ∧ right.key.label ≠ .epsilon

theorem Forest.Valid.isTiled {f : Forest} (h : f.Valid) : f.Tiled where
  forward := h.forward
  right n hn fam hfam := by
    obtain ⟨left?, rkey, ⟨hl, hr⟩, hcheck⟩ := h.tiled n hn fam hfam
    obtain ⟨right, hright, rfl⟩ := key?_eq_some_iff.mp hr
    obtain ⟨hstop, hfit⟩ := Family.check_eq_ok_iff.mp hcheck
    refine ⟨right, hright, hstop, fun hnone => ?_⟩
    rw [hnone, Option.map_none] at hl
    obtain rfl : left? = none := Option.map_eq_none_iff.mp hl.symm
    exact hfit
  left n hn fam hfam l hfl := by
    obtain ⟨left?, rkey, ⟨hl, hr⟩, hcheck⟩ := h.tiled n hn fam hfam
    obtain ⟨right, hright, rfl⟩ := key?_eq_some_iff.mp hr
    obtain ⟨-, hfit⟩ := Family.check_eq_ok_iff.mp hcheck
    rw [hfl, Option.map_some] at hl
    obtain ⟨lkey, rfl, hlkey⟩ := Option.map_eq_some_iff.mp hl.symm
    obtain ⟨left, hleft, rfl⟩ := key?_eq_some_iff.mp hlkey.symm
    exact ⟨left, right, hleft, hright, hfit⟩

theorem Run.Sound.pool_eq_nil {run : Run} (h : run.Sound g tokens)
    (hpos : tokens.length ≤ run.position) : run.column.pool = [] := by
  refine List.eq_nil_iff_forall_not_mem.mpr fun e he => ?_
  obtain ⟨t, ht, -⟩ := Entry.scans_eq_true_iff.mp (h.present.scans e he)
  rw [List.getElem?_eq_none_iff.mpr hpos] at ht
  cases ht

/-- **A parse meets no fault**, whatever the grammar and the tokens. At every stage that it comes
to, the position is one of the text, the next entry can be worked on, the token ahead can be
passed, and behind the last token no entry waits for one. All entries are placed where their nodes
are, and all families tile the spans of their nodes. -/
theorem Grammar.parse_meets_no_fault (g : Grammar) (tokens : List Symbol) :
    (∃ p, g.parse tokens = .ok p ∧ (tokens ≠ [] → ∃ k s, Stage.Reached g tokens k s ∧
      s.Done tokens ∧ p = s.run.result g)) ∧
    ∀ k s, Stage.Reached g tokens k s →
      s.run.position ≤ tokens.length ∧
      (∀ e, s.entry? = some e → ∃ run, s.run.visit g s.cursor e = .ok run) ∧
      (∀ t, s.entry? = none → tokens[s.run.position]? = some t →
        ∃ run, s.run.shift t tokens[s.run.position + 1]? = .ok run) ∧
      (tokens.length ≤ s.run.position → s.run.column.pool = []) ∧
      (∀ (i : Nat) (c : Column), s.run.columns[i]? = some c →
        ∀ e ∈ c.entries ++ c.pool, e.Placed s.run.forest i) ∧
      s.run.forest.Tiled := by
  refine ⟨g.parse_reaches tokens, fun k s h => ?_⟩
  have hkept := h.kept
  have hsound := hkept.passed.sound
  refine ⟨hkept.position_le, fun e he => ?_, fun t hend ht => ?_, hsound.pool_eq_nil,
    fun i c hc e he => ?_, hsound.forest.valid.isTiled⟩
  · obtain ⟨run, hrun, -⟩ := hkept.visit he
    exact ⟨run, hrun⟩
  · obtain ⟨run, hrun, -⟩ := hkept.shift hend ht
    exact ⟨run, hrun⟩
  · exact ((hsound.column i c hc).entry e he).placed

end Parsing
