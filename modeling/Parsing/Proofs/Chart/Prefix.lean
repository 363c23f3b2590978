/-
# Charts of prefixes

What a sweep does at a position goes by the sets up to there. The token ahead is looked at only
where a dot moves over it, and what this brings stands in the next set, which nobody reads before
the token is passed. So two sweeps with the same sets work on a state in the same way, whatever
is ahead of them, and close their sets alike (`Sweep.close_congr`).

On their way through a common prefix of two texts the sweeps are the same, but for the token that
they face where the shorter text ends. There they have the same sets once more, in the same order;
and what comes behind adds sets and leaves those of the positions passed as they are.

Key definitions: `Sweep.sets`, `Sweep.facing`.
Key theorems: `Sweep.visit_congr`, `Sweep.close_congr`, `Sweep.Passed.walk_sets`,
`Sweep.walk_append`, `Grammar.chart_prefix`.
-/
import Parsing.Proofs.Chart.Exact

namespace Parsing

/-- Runs that agree by `f` go on to runs that agree by `h`, if what follows takes what agrees by `f`
to what agrees by `h`. -/
theorem map_bind_congr {ε α β γ : Type} {x y : Except ε α} {f : α → β} {k : α → Except ε α}
    {h : α → γ} (hxy : x.map f = y.map f) (hk : ∀ a b, f a = f b → (k a).map h = (k b).map h) :
    (x >>= k).map h = (y >>= k).map h := by
  cases x with
  | error e =>
    cases y with
    | error e' => cases hxy; rfl
    | ok b => cases hxy
  | ok a =>
    cases y with
    | error e' => cases hxy
    | ok b => exact hk a b (Except.ok.inj hxy)

namespace Sweep

variable {r : Recognizer} {tokens : List String} {sw sw' sw₁ sw₂ : Sweep} {s : State}

/-- The sets up to the present position. -/
def sets (sw : Sweep) : List (List State) := sw.closed ++ [sw.here]

/-! ### Moves of sweeps with the same sets -/

theorem sets_eq_iff : sw.sets = sw'.sets ↔ sw.closed = sw'.closed ∧ sw.here = sw'.here := by
  simp [sets]

theorem position_congr (h : sw.sets = sw'.sets) : sw.position = sw'.position := by
  rw [position, (sets_eq_iff.mp h).1, position]

theorem setAt_congr (h : sw.sets = sw'.sets) (pos : Nat) : sw.setAt pos = sw'.setAt pos := by
  rw [setAt, position_congr h, (sets_eq_iff.mp h).1, (sets_eq_iff.mp h).2, setAt]

theorem enqueueHere_congr (h : sw.sets = sw'.sets) (it : Item) (o : Nat) :
    (sw.enqueueHere it o).sets = (sw'.enqueueHere it o).sets := by
  obtain ⟨hclosed, hhere⟩ := sets_eq_iff.mp h
  unfold enqueueHere
  simp only [position_congr h, hhere]
  split
  · exact h
  · simp [sets, note, hclosed]

theorem sets_enqueueNext (sw : Sweep) (it : Item) (o : Nat) :
    (sw.enqueueNext it o).sets = sw.sets := by
  unfold enqueueNext
  dsimp only
  split <;> rfl

theorem enterAll_congr : ∀ (rules : List Rule) {sw sw' : Sweep}, sw.sets = sw'.sets →
    (rules.foldl (fun sw rule => sw.enqueueHere (Item.atStart rule) sw.position) sw).sets =
      (rules.foldl (fun sw rule => sw.enqueueHere (Item.atStart rule) sw.position) sw').sets
  | [], _, _, h => h
  | rule :: rules, sw, sw', h => by
    have hfirst := enqueueHere_congr h (Item.atStart rule) sw.position
    rw [List.foldl_cons, List.foldl_cons]
    rw [position_congr h] at hfirst ⊢
    exact enterAll_congr rules hfirst

theorem moveAll_congr : ∀ (ws : List State) {sw sw' : Sweep}, sw.sets = sw'.sets →
    (ws.foldlM (fun (sw : Sweep) (w : State) => do
        let item ← w.item.advance
        return sw.enqueueHere item w.start) sw : Except Fault Sweep).map sets =
      (ws.foldlM (fun (sw : Sweep) (w : State) => do
        let item ← w.item.advance
        return sw.enqueueHere item w.start) sw' : Except Fault Sweep).map sets
  | [], _, _, h => congrArg Except.ok h
  | w :: ws, sw, sw', h => by
    rw [List.foldlM_cons, List.foldlM_cons]
    refine map_bind_congr (f := sets) ?_ fun a b hab => moveAll_congr ws hab
    cases w.item.advance with
    | error e => rfl
    | ok it => exact congrArg Except.ok (enqueueHere_congr h it w.start)

theorem predict_congr (h : sw.sets = sw'.sets) (s : State) (symbol : Symbol) :
    (sw.predict r s symbol).map sets = (sw'.predict r s symbol).map sets := by
  have hnote : (sw.note (.predicted s)).sets = (sw'.note (.predicted s)).sets := h
  have hall := enterAll_congr (r.grammar.rulesFor symbol) hnote
  unfold predict
  dsimp only
  split
  · cases s.item.advance with
    | error e => rfl
    | ok it =>
      have hskip := enqueueHere_congr hall it s.start
      exact congrArg Except.ok hskip
  · exact congrArg Except.ok hall

theorem scan_sets (sw : Sweep) {symbol : Symbol} (hnext : s.item.next? = some symbol) :
    (sw.scan r s symbol).map sets = .ok sw.sets := by
  obtain ⟨hle, ha⟩ := Item.advance_of_next? hnext
  unfold scan
  dsimp only
  split
  · rfl
  · split
    · rw [ha]
      exact congrArg Except.ok (sets_enqueueNext _ _ _)
    · rfl

theorem complete_congr (h : sw.sets = sw'.sets) (s : State) :
    (sw.complete s).map sets = (sw'.complete s).map sets := by
  have hnote : (sw.note (.completed s)).sets = (sw'.note (.completed s)).sets := h
  unfold complete
  dsimp only
  rw [setAt_congr hnote]
  cases (sw'.note (.completed s)).setAt s.start with
  | error e => rfl
  | ok states => exact moveAll_congr _ hnote

/-- **A state is worked on alike** where the sets are the same, whatever is ahead. -/
theorem visit_congr (h : sw.sets = sw'.sets) (s : State) :
    (sw.visit r s).map sets = (sw'.visit r s).map sets := by
  cases hnext : s.item.next? with
  | none =>
    simp only [visit, hnext]
    exact complete_congr h s
  | some symbol =>
    rw [visit_of_waits hnext, visit_of_waits hnext]
    split
    · exact predict_congr h s symbol
    · rw [scan_sets sw hnext, scan_sets sw' hnext, h]

theorem closeFrom_congr : ∀ (budget cursor : Nat) {sw sw' : Sweep}, sw.sets = sw'.sets →
    (closeFrom r budget cursor sw).map sets = (closeFrom r budget cursor sw').map sets
  | 0, cursor, sw, sw', h => by
    rw [closeFrom, closeFrom, (sets_eq_iff.mp h).2]
    split
    · exact congrArg Except.ok h
    · rfl
  | budget + 1, cursor, sw, sw', h => by
    unfold closeFrom
    rw [(sets_eq_iff.mp h).2]
    cases sw'.here[cursor]? with
    | none => exact congrArg Except.ok h
    | some s =>
      exact map_bind_congr (visit_congr h s) fun a b hab => closeFrom_congr budget (cursor + 1) hab

/-- **A set is closed alike** where the sets are the same, whatever is ahead. -/
theorem close_congr (h : sw.sets = sw'.sets) : (sw.close r).map sets = (sw'.close r).map sets := by
  unfold close
  rw [position_congr h]
  exact closeFrom_congr _ 0 h

/-! ### Through a common prefix -/

/-- What a sweep has when it has closed the present set it still has at the end. -/
theorem Passed.walk_sets : ∀ (rest front : List String) {sw sw' : Sweep}, tokens = front ++ rest →
    sw.position = front.length → sw.Passed r tokens → walk r rest sw = .ok sw' →
    ∃ sw₁, sw.close r = .ok sw₁ ∧ sw₁.sets <+: sw'.sets
  | [], _, _, sw', _, _, _, hrun => ⟨sw', hrun, List.prefix_refl _⟩
  | token :: rest, front, sw, sw', ht, hpos, h, hrun => by
    obtain ⟨sw₁, hrun₁, h₁, hgr₁, hclose⟩ := close_spec h.sound
    have hpos₁ : sw₁.position = front.length := hgr₁.position.trans hpos
    have hahead : tokens[sw₁.position + 1]? = rest.head? := getElem?_ahead ht hpos₁
    have hnext := (h.grows h₁ hgr₁).shift hclose
    rw [hahead] at hnext
    unfold walk at hrun
    simp only [bind, Except.bind, hrun₁] at hrun
    obtain ⟨sw₂, hrun₂, hsets⟩ := Passed.walk_sets rest (front ++ [token]) (by simpa using ht)
      (by rw [position_shift, hpos₁]; simp) hnext hrun
    obtain ⟨sw₃, hrun₃, -, hgr₃, -⟩ := close_spec hnext.sound
    obtain rfl := Except.ok.inj (hrun₂.symm.trans hrun₃)
    refine ⟨sw₁, hrun₁, List.IsPrefix.trans ?_ hsets⟩
    have hclosed : sw₂.closed = sw₁.sets := hgr₃.closed
    exact hclosed ▸ List.prefix_append _ _

/-- The sweep with the given tokens ahead. -/
def facing (sw : Sweep) (ahead : List String) : Sweep := { sw with ahead := ahead.head? }

/-- **Through the common part of two texts the sets are the same.** -/
theorem walk_append {more : List String} : ∀ (rest front : List String) {sw sw₁ sw₂ : Sweep},
    tokens = front ++ (rest ++ more) → sw.position = front.length →
    (sw.facing (rest ++ more)).Passed r tokens → walk r rest (sw.facing rest) = .ok sw₁ →
    walk r (rest ++ more) (sw.facing (rest ++ more)) = .ok sw₂ → sw₁.sets <+: sw₂.sets
  | [], front, sw, sw₁, sw₂, ht, hpos, h, hrun₁, hrun₂ => by
    -- the sweeps face different tokens here, but close the same sets
    have hpos : (sw.facing more).position = front.length := hpos
    obtain ⟨sw₃, hrun₃, hsets⟩ := Passed.walk_sets more front ht hpos h hrun₂
    have hrun₁ : (sw.facing []).close r = .ok sw₁ := hrun₁
    have hsame : ((sw.facing []).close r).map sets = ((sw.facing more).close r).map sets :=
      close_congr rfl
    rw [hrun₁, hrun₃] at hsame
    rwa [Except.ok.inj hsame]
  | token :: rest, front, sw, sw₁, sw₂, ht, hpos, h, hrun₁, hrun₂ => by
    -- both sweeps face the same token, so they are the same up to the next position
    obtain ⟨sw₃, hrun₃, h₃, hgr₃, hclose⟩ := close_spec h.sound
    have hrun₃' : (sw.facing (token :: rest)).close r = .ok sw₃ := hrun₃
    have hpos₃ : sw₃.position = front.length := hgr₃.position.trans hpos
    have hahead : tokens[sw₃.position + 1]? = (rest ++ more).head? := getElem?_ahead ht hpos₃
    have hnext := (h.grows h₃ hgr₃).shift hclose
    rw [hahead] at hnext
    rw [List.cons_append] at hrun₂ hrun₃
    unfold walk at hrun₁ hrun₂
    simp only [bind, Except.bind, hrun₃'] at hrun₁
    simp only [bind, Except.bind, hrun₃] at hrun₂
    have hpos₄ : (sw₃.shift none).position = (front ++ [token]).length := by
      rw [position_shift, hpos₃]
      simp
    exact walk_append rest (front ++ [token]) (by simpa using ht) hpos₄ hnext hrun₁ hrun₂

end Sweep

/-- **A chart tells nothing of what comes behind.** For any grammar and any lexicon, the chart of a
text begins with the sets of the chart of each prefix, with their states in the same order. -/
theorem Grammar.chart_prefix (g : Grammar) (lex : Lexicon) (tokens more : List String) :
    ∃ c c', g.chart lex tokens = .ok c ∧ g.chart lex (tokens ++ more) = .ok c' ∧
      c.sets.length = tokens.length + 1 ∧ c'.sets.take (tokens.length + 1) = c.sets := by
  have hends : ∀ tokens : List String, ∃ sw,
      Sweep.walk (g.recognizer lex) tokens (Sweep.start g tokens) = .ok sw ∧
      g.chart lex tokens = .ok (sw.result g tokens) ∧ sw.sets.length = tokens.length + 1 := by
    intro tokens
    obtain ⟨sw, hrun, h⟩ := Sweep.walk_spec tokens [] rfl rfl
      (Sweep.passed_start (g.recognizer lex) tokens)
    refine ⟨sw, hrun, ?_, h.length_sets⟩
    unfold chart
    simp only [bind, Except.bind, hrun]
    rfl
  obtain ⟨sw, hrun, hchart, hlength⟩ := hends tokens
  obtain ⟨sw', hrun', hchart', -⟩ := hends (tokens ++ more)
  have hstart : (Sweep.start g []).position = ([] : List String).length := rfl
  have hsets : sw.sets <+: sw'.sets :=
    Sweep.walk_append tokens [] rfl hstart
      (Sweep.passed_start (g.recognizer lex) (tokens ++ more)) hrun hrun'
  refine ⟨_, _, hchart, hchart', hlength, ?_⟩
  rw [← hlength]
  exact (List.prefix_iff_eq_take.mp hsets).symm

end Parsing
