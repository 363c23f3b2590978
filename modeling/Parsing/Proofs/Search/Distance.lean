/-
# Breadth-first search goes by distance

The distance of a state is the length of a shortest walk to it. Breadth-first, the frontier is
sorted by length, and no two of its paths differ by more than one step (`Search.Layered`). A state
may wait there at the end of several paths, but it comes up for the first time with a shortest:
every walk to a state that has not come up leads through the end of some path of the frontier that
is no longer than the walk so far, and the path to be looked at next is no longer than that
(`Search.Layered.head_le`). So states come up in the order of their distance, goals among them.

For the same reason no look goes beyond the distance of the nearest goal, before that goal is
found. There are only so many ways of this length (`Graph.ways`), and each look works off one of
them (`Search.ahead_expand_lt`). So a goal that can be reached is found, however many states there
are.

Key definitions: `Graph.distance`, `Search.Layered`, `Graph.ways`, `Search.ahead`.
Key theorems: `Search.Gathered.layered`, `Search.first_finishes_of_walk`,
`Search.breadthFirst_by_distance`.
-/
import Mathlib.Algebra.Order.BigOperators.Group.List
import Mathlib.Data.ENat.Lattice
import Parsing.Proofs.Search.Finite

namespace Parsing

variable {σ ε : Type} {G : Graph σ ε} {s t : σ}

/-- How many steps lead from `s` to the state at least, past no goal; infinitely many if there is
no walk to it. -/
noncomputable def Graph.distance (G : Graph σ ε) (s t : σ) : ℕ∞ :=
  ⨅ (labels : List ε) (_ : G.Walk s labels t), (labels.length : ℕ∞)

theorem Graph.Walk.distance_le {labels : List ε} (h : G.Walk s labels t) :
    G.distance s t ≤ labels.length :=
  iInf₂_le labels h

theorem Graph.le_distance {n : Nat} (h : ∀ labels, G.Walk s labels t → n ≤ labels.length) :
    n ≤ G.distance s t :=
  le_iInf₂ fun labels hw => Nat.cast_le.mpr (h labels hw)

namespace Search

variable {p : Path σ ε} {rest : List (Path σ ε)} {goals expanded : List σ} {S : Search σ ε}

/-! ### Layers -/

/-- What a breadth-first search keeps. Its frontier is sorted and spans two layers, no walk is
shorter than the path of the frontier that it comes to, and what came up is in the order of its
distance and not behind the frontier. -/
structure Layered (G : Graph σ ε) (s : σ) (goals : List σ) (S : Search σ ε) : Prop where
  layers : S.frontier.Pairwise fun p q =>
    p.labels.length ≤ q.labels.length ∧ q.labels.length ≤ p.labels.length + 1
  covers : Covers (fun labels q => q.labels.length ≤ labels.length) G s goals S
  reached : ∀ t, t ∈ goals ∨ t ∈ S.expanded → ∀ q ∈ S.frontier, G.distance s t ≤ q.labels.length
  goals_sorted : goals.Pairwise fun t u => G.distance s u ≤ G.distance s t
  expanded_sorted : S.expanded.Pairwise fun t u => G.distance s u ≤ G.distance s t

namespace Layered

/-- **No walk to a state that has not come up is shorter than the next path.** -/
theorem head_le (h : Layered G s goals ⟨p :: rest, expanded⟩)
    (hgoals : ∀ t ∈ goals, G.isGoal t = true) (ht : t ∉ goals) (ht' : t ∉ expanded)
    {labels : List ε} (hw : G.Walk s labels t) : p.labels.length ≤ labels.length := by
  rcases h.covers.of_walk hgoals hw with hmem | hmem | ⟨q, hq, first, hfirst, hnear⟩
  · exact absurd hmem ht
  · exact absurd hmem ht'
  · have hpq : p.labels.length ≤ q.labels.length := by
      rcases List.mem_cons.mp hq with rfl | hq
      · exact Nat.le_refl _
      · exact ((List.pairwise_cons.mp h.layers).1 q hq).1
    exact hpq.trans (hnear.trans hfirst.length_le)

/-- A state comes up for the first time with a shortest path. -/
theorem distance_head (h : Layered G s goals ⟨p :: rest, expanded⟩)
    (hg : Gathering G s goals ⟨p :: rest, expanded⟩) (hp : p.state ∉ goals)
    (hp' : p.state ∉ expanded) : G.distance s p.state = p.labels.length :=
  le_antisymm (hg.walks p List.mem_cons_self).distance_le
    (Graph.le_distance fun _ hw => h.head_le (fun t ht => (hg.met t ht).1) hp hp' hw)

theorem start (G : Graph σ ε) (s : σ) : Layered G s [] (Search.start s) where
  layers := List.pairwise_singleton _ _
  covers := .start_of (Nat.le_refl _)
  reached t ht := by rcases ht with ht | ht <;> cases ht
  goals_sorted := .nil
  expanded_sorted := .nil

theorem again (h : Layered G s goals ⟨p :: rest, expanded⟩)
    (hp : p.state ∈ goals ∨ p.state ∈ expanded) : Layered G s goals ⟨rest, expanded⟩ where
  layers := h.layers.tail
  covers := h.covers.again hp
  reached t ht q hq := h.reached t ht q (List.mem_cons_of_mem _ hq)
  goals_sorted := h.goals_sorted
  expanded_sorted := h.expanded_sorted

/-- What came up before is no farther than a state that comes up for the first time. -/
theorem distance_le_head (h : Layered G s goals ⟨p :: rest, expanded⟩)
    (hdist : G.distance s p.state = p.labels.length) (ht : t ∈ goals ∨ t ∈ expanded) :
    G.distance s t ≤ G.distance s p.state := by
  rw [hdist]
  exact h.reached t ht p List.mem_cons_self

theorem meet (h : Layered G s goals ⟨p :: rest, expanded⟩)
    (hdist : G.distance s p.state = p.labels.length) :
    Layered G s (p.state :: goals) ⟨rest, expanded⟩ where
  layers := h.layers.tail
  covers := h.covers.meet
  reached t ht q hq := by
    have hpq := (List.pairwise_cons.mp h.layers).1 q hq
    rw [List.mem_cons, or_assoc] at ht
    rcases ht with rfl | ht
    · rw [hdist]
      exact Nat.cast_le.mpr hpq.1
    · exact h.reached t ht q (List.mem_cons_of_mem _ hq)
  goals_sorted := List.pairwise_cons.mpr
    ⟨fun t ht => h.distance_le_head hdist (.inl ht), h.goals_sorted⟩
  expanded_sorted := h.expanded_sorted

theorem length_of_mem_fresh [DecidableEq σ] {q : Path σ ε} (hq : q ∈ fresh G p expanded) :
    q.labels.length = p.labels.length + 1 := by
  obtain ⟨e, -, -, hlabels⟩ := mem_fresh.mp hq
  rw [hlabels, List.length_cons]

theorem enter [DecidableEq σ] (h : Layered G s goals ⟨p :: rest, expanded⟩)
    (hdist : G.distance s p.state = p.labels.length) :
    Layered G s goals
      ⟨rest ++ fresh G p (p.state :: expanded), p.state :: expanded⟩ := by
  obtain ⟨hhead, hrest⟩ := List.pairwise_cons.mp h.layers
  have hnear : ∀ labels, G.Walk s labels p.state → ∀ (e : ε) (u : σ),
      (⟨u, e :: p.labels⟩ : Path σ ε).labels.length ≤ (e :: labels).length := by
    intro labels hw _ _
    have hle : (p.labels.length : ℕ∞) ≤ labels.length := hdist ▸ hw.distance_le
    exact Nat.succ_le_succ (Nat.cast_le.mp hle)
  -- the path looked at is no longer than any path of the new frontier
  have hle : ∀ q ∈ rest ++ fresh G p (p.state :: expanded), p.labels.length ≤ q.labels.length := by
    intro q hq
    rcases List.mem_append.mp hq with hq | hq
    · exact (hhead q hq).1
    · have := length_of_mem_fresh hq
      omega
  refine ⟨List.pairwise_append.mpr ⟨hrest, ?_, fun q hq q' hq' => ?_⟩,
    h.covers.enter .breadthFirst hnear, fun t ht q hq => ?_, h.goals_sorted, ?_⟩
  · refine List.pairwise_of_forall_mem_list fun q hq q' hq' => ?_
    rw [length_of_mem_fresh hq, length_of_mem_fresh hq']
    exact ⟨Nat.le_refl _, Nat.le_succ _⟩
  · have := hhead q hq
    rw [length_of_mem_fresh hq']
    omega
  · have hpq : (p.labels.length : ℕ∞) ≤ q.labels.length := Nat.cast_le.mpr (hle q hq)
    rw [List.mem_cons, or_left_comm] at ht
    rcases ht with rfl | ht
    · exact hdist.trans_le hpq
    · exact (h.reached t ht p List.mem_cons_self).trans hpq
  · exact List.pairwise_cons.mpr
      ⟨fun t ht => h.distance_le_head hdist (.inr ht), h.expanded_sorted⟩

end Layered

/-- **A breadth-first search is layered all along.** -/
theorem Gathered.layered [DecidableEq σ] (h : Gathered G .breadthFirst s goals S) :
    Layered G s goals S := by
  induction h with
  | start => exact .start G s
  | again _ hp ih => exact ih.again hp
  | meet h hgoal hp ih =>
    exact ih.meet (ih.distance_head h.gathering hp (h.gathering.notMem_expanded hgoal))
  | enter h hgoal hp ih =>
    exact ih.enter (ih.distance_head h.gathering (h.gathering.notMem_goals hgoal) hp)

end Search

/-! ### Goals among any number of states -/

/-- How many ways of fewer than `n` steps there are from a state. -/
def Graph.ways (G : Graph σ ε) : Nat → σ → Nat
  | 0, _ => 0
  | n + 1, t => 1 + ((G.steps t).map fun e => G.ways n e.2).sum

namespace Search

variable [DecidableEq σ] {strategy : Strategy} {p : Path σ ε} {rest : List (Path σ ε)}
  {goals expanded : List σ} {n looks : Nat}

/-- How many ways of fewer than `n` steps from the start go on from the paths of the frontier. -/
def ahead (G : Graph σ ε) (n : Nat) (S : Search σ ε) : Nat :=
  (S.frontier.map fun q => G.ways (n - q.labels.length) q.state).sum

omit [DecidableEq σ] in
theorem ahead_cons : ahead G n ⟨p :: rest, expanded⟩ =
    G.ways (n - p.labels.length) p.state + ahead G n ⟨rest, expanded⟩ := List.sum_cons

/-- The fresh paths are the start of no more ways than lead on from the path before. -/
theorem ahead_fresh_lt (hp : p.labels.length < n) (expanded' : List σ) :
    ahead G n ⟨fresh G p expanded, expanded'⟩ < G.ways (n - p.labels.length) p.state := by
  obtain ⟨m, hm⟩ : ∃ m, n - p.labels.length = m + 1 := ⟨n - p.labels.length - 1, by omega⟩
  have hsub : ((fresh G p expanded).map fun q => G.ways (n - q.labels.length) q.state).Sublist
      ((G.steps p.state).map fun e => G.ways m e.2) := by
    have hm' : n - (p.labels.length + 1) = m := by omega
    simp only [fresh, List.map_map, Function.comp_def, List.length_cons, hm']
    exact List.filter_sublist.map _
  have hsum := hsub.sum_le_sum fun _ _ => Nat.zero_le _
  rw [hm]
  exact Nat.lt_of_le_of_lt hsum (Nat.lt_add_of_pos_left Nat.one_pos)

/-- **A look within `n` steps works off a way.** -/
theorem ahead_expand_lt (hp : p.labels.length < n) :
    ahead G n (expand G strategy p ⟨rest, expanded⟩) < ahead G n ⟨p :: rest, expanded⟩ := by
  rw [ahead_cons]
  by_cases hmem : p.state ∈ expanded
  · have hpos : ahead G n ⟨fresh G p [], []⟩ < G.ways (n - p.labels.length) p.state :=
      ahead_fresh_lt hp []
    rw [expand_of_mem strategy hmem]
    omega
  · have hfresh : ahead G n ⟨fresh G p (p.state :: expanded), expanded⟩ <
        G.ways (n - p.labels.length) p.state := ahead_fresh_lt hp expanded
    have hextend : ∀ fresh later, ahead G n ⟨strategy.extend fresh rest, later⟩ =
        ahead G n ⟨fresh, expanded⟩ + ahead G n ⟨rest, expanded⟩ := by
      intro fresh later
      cases strategy with
      | breadthFirst => simp [ahead, Strategy.extend, Nat.add_comm]
      | depthFirst => simp [ahead, Strategy.extend]
    rw [expand_of_notMem strategy hmem, hextend]
    omega

/-- No look of a breadth-first search goes beyond a goal that is not found yet. -/
theorem first_finishes_of_walk {labels : List ε} (hw : G.Walk s labels t)
    (hgoal : G.isGoal t = true) (hlooks : G.ways (labels.length + 1) s < looks) :
    first G .breadthFirst looks (start s) ≠ .unfinished := by
  refine first_finishes (ahead G (labels.length + 1)) (fun p rest expanded h => ?_) looks .start ?_
  · have hle := h.layered.head_le nofun nofun (h.gathering.notMem_expanded hgoal) hw
    exact ahead_expand_lt (Nat.lt_succ_of_le hle)
  · simpa [ahead, start] using hlooks

/-- **Breadth-first, a goal that some walk comes to is found**, even among infinitely many
states. -/
theorem first_finds {labels : List ε} (hw : G.Walk s labels t) (hgoal : G.isGoal t = true) :
    ∃ enough p expanded, ∀ looks ≥ enough,
      first G .breadthFirst looks (start s) = .found p expanded := by
  let enough := G.ways (labels.length + 1) s + 1
  have hfinishes := first_finishes_of_walk hw hgoal (Nat.lt_succ_self _ : _ < enough)
  have htells := first_tells G .breadthFirst enough s
  cases hend : first G .breadthFirst enough (start s) with
  | found p expanded =>
    exact ⟨enough, p, expanded, fun looks hlooks => hend ▸ first_of_le hfinishes hlooks⟩
  | absent expanded =>
    rw [hend] at htells
    rw [htells labels t hw] at hgoal
    cases hgoal
  | unfinished => exact absurd hend hfinishes

/-- **Breadth-first, the path that is found is a shortest to any goal.** -/
theorem first_found_le {expanded : List σ}
    (hend : first G .breadthFirst looks (start s) = .found p expanded) {labels : List ε}
    (hw : G.Walk s labels t) (hgoal : G.isGoal t = true) :
    p.labels.length ≤ labels.length := by
  have hends := first_ends G .breadthFirst looks s
  rw [hend] at hends
  obtain ⟨-, rest, h⟩ := hends
  exact h.layered.head_le nofun nofun (h.gathering.notMem_expanded hgoal) hw

/-! ### What comes up, and in which order -/

theorem Gathered.expanded_sorted (h : Gathered G .breadthFirst s goals S) :
    S.expanded.reverse.Pairwise fun t u => G.distance s t ≤ G.distance s u :=
  List.pairwise_reverse.mpr h.layered.expanded_sorted

/-- When a search for one goal ends, states have been expanded in the order of their distance. -/
theorem first_expanded_sorted (G : Graph σ ε) (looks : Nat) (s : σ) :
    (first G .breadthFirst looks (start s)).expanded.Pairwise
      fun t u => G.distance s t ≤ G.distance s u := by
  have hends := first_ends G .breadthFirst looks s
  cases hend : first G .breadthFirst looks (start s) with
  | found p expanded =>
    rw [hend] at hends
    obtain ⟨-, rest, h⟩ := hends
    simpa [SearchResult.expanded] using h.expanded_sorted
  | absent expanded =>
    rw [hend] at hends
    simpa [SearchResult.expanded] using Gathered.expanded_sorted hends
  | unfinished => exact .nil

/-- **Breadth-first search goes by distance.** States are expanded in the order of their distance,
up to any stage of a search and when it ends. If a goal is reached, a search for one goal ends and
finds a nearest goal, even where infinitely many states are reached. Where they are finitely many,
a search for all goals ends, and it gives the goals that walks come to in the order of their
distance. -/
theorem breadthFirst_by_distance (G : Graph σ ε) (s : σ) :
    (∀ goals S, Gathered G .breadthFirst s goals S →
      S.expanded.reverse.Pairwise fun t u => G.distance s t ≤ G.distance s u) ∧
    (∀ looks, (first G .breadthFirst looks (start s)).expanded.Pairwise
      fun t u => G.distance s t ≤ G.distance s u) ∧
    (∀ looks goals expanded, all G .breadthFirst looks [] (start s) = some (goals, expanded) →
      expanded.Pairwise fun t u => G.distance s t ≤ G.distance s u) ∧
    (∀ t, G.Reaches s t → G.isGoal t = true → ∃ enough p expanded,
      (∀ looks ≥ enough, first G .breadthFirst looks (start s) = .found p expanded) ∧
      G.isGoal p.state = true ∧ G.distance s p.state = p.labels.length ∧
      ∀ u, G.isGoal u = true → G.distance s p.state ≤ G.distance s u) ∧
    ({t | G.Reaches s t}.Finite → ∃ enough goals expanded,
      (∀ looks ≥ enough, all G .breadthFirst looks [] (start s) = some (goals, expanded)) ∧
      (∀ t, t ∈ goals ↔ G.isGoal t = true ∧ ∃ labels, G.Walk s labels t) ∧
      goals.Pairwise fun t u => G.distance s t ≤ G.distance s u) := by
  refine ⟨fun goals S h => h.expanded_sorted, fun looks => first_expanded_sorted G looks s,
    fun looks goals expanded hend => ?_, fun t ht hgoal => ?_, fun hfin => ?_⟩
  · simpa using (all_ends hend).expanded_sorted
  · obtain ⟨labels, u, hw, hu⟩ := ht.exists_walk hgoal
    obtain ⟨enough, p, expanded, hend⟩ := first_finds hw hu
    have hfound := hend enough (Nat.le_refl _)
    have htells := first_tells G .breadthFirst enough s
    rw [hfound] at htells
    obtain ⟨hwalk, hp⟩ := htells
    have hdist : G.distance s p.state = p.labels.length :=
      le_antisymm hwalk.distance_le (Graph.le_distance fun _ hw => first_found_le hfound hw hp)
    refine ⟨enough, p, expanded, hend, hp, hdist, fun v hv => ?_⟩
    rw [hdist]
    exact Graph.le_distance fun _ hw => first_found_le hfound hw hv
  · have hR : ∀ labels t, G.Walk s labels t → t ∈ hfin.toFinset :=
      fun _ _ hw => hfin.mem_toFinset.mpr hw.reaches
    obtain ⟨goals, expanded, hend⟩ := all_settles hR .breadthFirst
    have h := all_ends (hend _ (Nat.lt_succ_self _))
    refine ⟨_, goals, expanded, hend, h.exactAll.mem_goals_iff, ?_⟩
    simpa using List.pairwise_reverse.mpr h.layered.goals_sorted

/-- The theorem at two graphs: one in which infinitely many states are reached, with a goal at
distance 3, and a finite one with circles and two goals. -/
theorem breadthFirst_by_distance_doubling :
    let G : Graph Nat Unit := ⟨fun n => [((), n + 1), ((), 2 * n)], fun n => n == 6⟩
    let H : Graph Nat Unit :=
      ⟨fun n => [((), (n + 1) % 6), ((), 2 * n % 6)], fun n => n == 0 || n == 4⟩
    G.Reaches 1 6 ∧ G.distance 1 6 = 3 ∧
      ([1, 2, 3, 4].Pairwise fun t u => G.distance 1 t ≤ G.distance 1 u) ∧
      ((Search.expand G .breadthFirst ⟨1, []⟩ ⟨[], []⟩).expanded.reverse.Pairwise
        fun t u => G.distance 1 t ≤ G.distance 1 u) ∧
      {t | H.Reaches 1 t}.Finite ∧ H.distance 1 4 ≤ H.distance 1 0 ∧
      [1, 2, 3].Pairwise fun t u => H.distance 1 t ≤ H.distance 1 u := by
  intro G H
  have hreach : G.Reaches 1 6 :=
    .tail (.tail (.tail .refl ⟨(), .head _⟩) ⟨(), .head _⟩) ⟨(), .tail _ (.head _)⟩
  have hstage : Gathered G .breadthFirst 1 [] (Search.expand G .breadthFirst ⟨1, []⟩ ⟨[], []⟩) :=
    Gathered.start.expand rfl
  have hfound : first G .breadthFirst 9 (start 1) = .found ⟨6, [(), (), ()]⟩ [1, 2, 3, 4] := rfl
  have hall : all H .breadthFirst 9 [] (start 1) = some ([4, 0], [1, 2, 3]) := by decide
  have hbound : ∀ t, H.Reaches 1 t → t < 6 := by
    intro t ht
    induction ht with
    | refl => decide
    | @tail t u _ hstep _ =>
      obtain ⟨e, he⟩ := hstep
      simp only [H, List.mem_cons, Prod.mk.injEq, List.not_mem_nil, or_false] at he
      omega
  have hfin : {t | H.Reaches 1 t}.Finite := (Set.finite_lt_nat 6).subset hbound
  obtain ⟨hstages, hfirst, -, hfinds, -⟩ := breadthFirst_by_distance G 1
  obtain ⟨enough, p, expanded, hend, -, hdist, -⟩ := hfinds 6 hreach rfl
  obtain ⟨enough', goals, expanded', hend', -, hsorted⟩ :=
    (breadthFirst_by_distance H 1).2.2.2.2 hfin
  -- what nine looks find is what more looks find
  have hpath : p = ⟨6, [(), (), ()]⟩ := by
    have hends : first G .breadthFirst 9 (start 1) ≠ .unfinished := by simp [hfound]
    have hmore := first_of_le hends (Nat.le_add_right 9 enough)
    rw [hend _ (Nat.le_add_left enough 9), hfound] at hmore
    exact (SearchResult.found.inj hmore).1
  have hgoals : goals = [4, 0] := by
    have hmore := all_of_le hall (Nat.le_add_right 9 enough')
    rw [hend' _ (Nat.le_add_left enough' 9)] at hmore
    exact (Prod.mk.inj (Option.some.inj hmore)).1
  refine ⟨hreach, ?_, hfirst 9, hstages _ _ hstage, hfin, ?_, ?_⟩
  · rw [hpath] at hdist
    exact hdist
  · rw [hgoals] at hsorted
    exact List.rel_of_pairwise_cons hsorted List.mem_cons_self
  · exact (breadthFirst_by_distance H 1).2.2.1 9 _ _ hall

end Search

end Parsing
