/-
# Searches of finite graphs

Of the states that a search comes to, each is expanded at most once. So where these states are
finitely many, the frontier gets no more paths than there are steps from them, and with each look
there is one path less to come or to look at (`Search.due_expand_lt`): the search ends, circles or
not. What it then has expanded is closed under steps, so it has met the goals that walks come to
and no others, whatever the order of its looks.

A goal can be reached at all only if some walk comes to a goal, for a way past goals has its first
goal at the end of a walk (`Graph.Reaches.exists_walk`).

Key definitions: `Graph.Reaches`, `Search.due`, `SearchResult.Exact`, `Search.ExactAll`.
Key theorems: `Search.first_settles`, `Search.all_settles`, `Search.exact_of_finite`.
-/
import Mathlib.Algebra.BigOperators.Group.Finset.Basic
import Mathlib.Data.Set.Finite.Basic
import Mathlib.Logic.Relation
import Parsing.Proofs.Search

namespace Parsing

variable {σ ε : Type} {G : Graph σ ε} {s t : σ}

/-! ### States that are reached -/

/-- Whether steps lead from `s` to the state, past goals or not. -/
def Graph.Reaches (G : Graph σ ε) (s t : σ) : Prop :=
  Relation.ReflTransGen (fun t u => ∃ e, (e, u) ∈ G.steps t) s t

theorem Graph.Walk.reaches {labels : List ε} (h : G.Walk s labels t) : G.Reaches s t := by
  induction h with
  | start => exact .refl
  | step _ _ he ih => exact ih.tail ⟨_, he⟩

/-- A state that is reached is at the end of a walk, or some goal is. -/
theorem Graph.Reaches.walk_or_goal (h : G.Reaches s t) :
    (∃ labels, G.Walk s labels t) ∨ ∃ labels u, G.Walk s labels u ∧ G.isGoal u = true := by
  induction h with
  | refl => exact .inl ⟨[], .start⟩
  | @tail t u _ hstep ih =>
    rcases ih with ⟨labels, hw⟩ | hgoal
    · obtain ⟨e, he⟩ := hstep
      by_cases ht : G.isGoal t = true
      · exact .inr ⟨labels, t, hw, ht⟩
      · exact .inl ⟨e :: labels, .step hw (Bool.not_eq_true _ ▸ ht) he⟩
    · exact .inr hgoal

/-- Where a goal is reached, some walk comes to a goal. -/
theorem Graph.Reaches.exists_walk (h : G.Reaches s t) (hgoal : G.isGoal t = true) :
    ∃ labels u, G.Walk s labels u ∧ G.isGoal u = true := by
  rcases h.walk_or_goal with ⟨labels, hw⟩ | hwalk
  · exact ⟨labels, t, hw, hgoal⟩
  · exact hwalk

namespace Search

variable [DecidableEq σ] {strategy : Strategy} {p : Path σ ε} {rest : List (Path σ ε)}
  {expanded : List σ} {R : Finset σ} {looks : Nat}

/-! ### The end of a search among finitely many states -/

/-- How many paths the frontier has and may get if only states of `R` are expanded. -/
def due (G : Graph σ ε) (R : Finset σ) (S : Search σ ε) : Nat :=
  S.frontier.length + ∑ t ∈ R with t ∉ S.expanded, (G.steps t).length

theorem length_fresh_le : (fresh G p expanded).length ≤ (G.steps p.state).length := by
  unfold fresh
  rw [List.length_map]
  exact List.length_filter_le _ _

/-- **A look leaves less to be done.** -/
theorem due_expand_lt (hp : p.state ∈ R) :
    due G R (expand G strategy p ⟨rest, expanded⟩) < due G R ⟨p :: rest, expanded⟩ := by
  by_cases hmem : p.state ∈ expanded
  · rw [expand_of_mem strategy hmem]
    simp only [due, List.length_cons]
    omega
  · rw [expand_of_notMem strategy hmem]
    have hlater : R.filter (· ∉ p.state :: expanded) = (R.filter (· ∉ expanded)).erase p.state := by
      ext t
      simp only [Finset.mem_filter, Finset.mem_erase, List.mem_cons, not_or]
      tauto
    have hsum := Finset.add_sum_erase (R.filter (· ∉ expanded)) (fun t => (G.steps t).length)
      (Finset.mem_filter.mpr ⟨hp, hmem⟩)
    have hfresh : (fresh G p (p.state :: expanded)).length ≤ _ := length_fresh_le
    have hextend : (strategy.extend (fresh G p (p.state :: expanded)) rest).length =
        (fresh G p (p.state :: expanded)).length + rest.length := by
      cases strategy <;> simp [Strategy.extend, Nat.add_comm]
    simp only [due, List.length_cons, hlater, hextend]
    omega

theorem Gathered.mem_of_finite (hR : ∀ labels t, G.Walk s labels t → t ∈ R) {goals : List σ}
    (h : Gathered G strategy s goals ⟨p :: rest, expanded⟩) : p.state ∈ R :=
  hR _ _ (h.gathering.walks p List.mem_cons_self)

/-- **Where walks come to finitely many states, a search for one goal ends.** -/
theorem first_settles (hR : ∀ labels t, G.Walk s labels t → t ∈ R) (strategy : Strategy) :
    ∃ result, result ≠ .unfinished ∧ ∀ looks > due G R (start s : Search σ ε),
      first G strategy looks (start s) = result := by
  have hfinishes : first G strategy (due G R (start s) + 1) (start s) ≠ .unfinished :=
    first_finishes (due G R) (fun _ _ _ h => due_expand_lt (h.mem_of_finite hR)) _ .start
      (Nat.lt_succ_self _)
  exact ⟨_, hfinishes, fun looks hlooks => first_of_le hfinishes hlooks⟩

/-- **Where walks come to finitely many states, a search for all goals ends.** -/
theorem all_settles (hR : ∀ labels t, G.Walk s labels t → t ∈ R) (strategy : Strategy) :
    ∃ goals expanded, ∀ looks > due G R (start s : Search σ ε),
      all G strategy looks [] (start s) = some (goals, expanded) := by
  have hmeet : ∀ p rest expanded, due G R ⟨rest, expanded⟩ < due G R ⟨p :: rest, expanded⟩ := by
    intro p rest expanded
    simp only [due, List.length_cons]
    omega
  obtain ⟨goals, expanded, hend⟩ : ∃ goals expanded,
      all G strategy (due G R (start s) + 1) [] (start s) = some (goals, expanded) :=
    all_finishes (due G R) (fun _ _ _ _ h => due_expand_lt (h.mem_of_finite hR)) hmeet _ .start
      (Nat.lt_succ_self _)
  exact ⟨goals, expanded, fun looks hlooks => all_of_le hend hlooks⟩

end Search

/-! ### What an end tells -/

/-- The states that a search has expanded when it ends. -/
def SearchResult.expanded : SearchResult σ ε → List σ
  | .found _ expanded | .absent expanded => expanded
  | .unfinished => []

/-- Whether a search for one goal from `s` has ended as it should: no state was expanded twice and
no goal at all, a goal that is found is reached, and none is found only if none is reached. -/
structure SearchResult.Exact (G : Graph σ ε) (s : σ) (result : SearchResult σ ε) : Prop where
  ends : result ≠ .unfinished
  expanded_nodup : result.expanded.Nodup
  expanded_plain : ∀ t ∈ result.expanded, G.isGoal t = false
  found : ∀ p expanded, result = .found p expanded →
    G.isGoal p.state = true ∧ G.Reaches s p.state
  absent_iff : (∃ expanded, result = .absent expanded) ↔ ∀ t, G.Reaches s t → G.isGoal t = false

/-- Whether a search for all goals from `s` has ended as it should: no state was expanded twice and
no goal at all, and the goals are those that walks come to, each once. -/
structure Search.ExactAll (G : Graph σ ε) (s : σ) (goals expanded : List σ) : Prop where
  expanded_nodup : expanded.Nodup
  expanded_plain : ∀ t ∈ expanded, G.isGoal t = false
  goals_nodup : goals.Nodup
  mem_goals_iff : ∀ t, t ∈ goals ↔ G.isGoal t = true ∧ ∃ labels, G.Walk s labels t

variable [DecidableEq σ] {strategy : Strategy}

/-- The states expanded at any stage are expanded once and no goals. -/
theorem Search.Gathered.expanded_once {goals expanded : List σ} {frontier : List (Path σ ε)}
    (h : Search.Gathered G strategy s goals ⟨frontier, expanded.reverse⟩) :
    expanded.Nodup ∧ ∀ t ∈ expanded, G.isGoal t = false :=
  ⟨List.nodup_reverse.mp h.gathering.expanded_nodup,
    fun t ht => (h.gathering.entered t (List.mem_reverse.mpr ht)).1⟩

theorem SearchResult.Ends.exact {result : SearchResult σ ε} (h : result.Ends G strategy s)
    (hend : result ≠ .unfinished) : result.Exact G s := by
  have htells := h.tells
  cases result with
  | found p expanded =>
    obtain ⟨hw, hgoal⟩ := htells
    obtain ⟨-, rest, h⟩ := h
    refine ⟨nofun, h.expanded_once.1, h.expanded_once.2, ?_, iff_of_false nofun fun hnone => ?_⟩
    · rintro _ _ ⟨⟩
      exact ⟨hgoal, hw.reaches⟩
    · rw [hnone p.state hw.reaches] at hgoal
      cases hgoal
  | absent expanded =>
    obtain ⟨hnodup, hplain⟩ := Search.Gathered.expanded_once h
    refine ⟨nofun, hnodup, hplain, nofun, iff_of_true ⟨expanded, rfl⟩ fun t ht => ?_⟩
    by_contra hgoal
    obtain ⟨labels, u, hw, hu⟩ := ht.exists_walk (by simpa using hgoal)
    rw [htells labels u hw] at hu
    cases hu
  | unfinished => exact absurd rfl hend

theorem Search.Gathered.exactAll {goals expanded : List σ}
    (h : Search.Gathered G strategy s goals.reverse ⟨[], expanded.reverse⟩) :
    Search.ExactAll G s goals expanded := by
  have hg := h.gathering
  refine ⟨h.expanded_once.1, h.expanded_once.2, List.nodup_reverse.mp hg.goals_nodup,
    fun t => ⟨fun ht => hg.met t (List.mem_reverse.mpr ht), ?_⟩⟩
  rintro ⟨hgoal, labels, hw⟩
  rcases h.mem_of_walk hw with hmem | hmem
  · exact List.mem_reverse.mp hmem
  · exact absurd hmem (hg.notMem_expanded hgoal)

namespace Search

/-- **Searches of a finite graph are exact.** Where finitely many states are reached, circles and
repeated steps or not, a search for one goal and a search for all goals end with either strategy,
and more looks change nothing. No state is expanded twice, and no goal ever. A goal is found if
and only if one is reached, and the goals gathered are those that walks come to, so they are the
same for both strategies. -/
theorem exact_of_finite (G : Graph σ ε) (s : σ) (hfin : {t | G.Reaches s t}.Finite) :
    ∃ (enough : Nat) (result : Strategy → SearchResult σ ε)
      (goals expanded : Strategy → List σ),
      (∀ strategy, ∀ looks ≥ enough, first G strategy looks (start s) = result strategy ∧
        all G strategy looks [] (start s) = some (goals strategy, expanded strategy)) ∧
      (∀ strategy, (result strategy).Exact G s) ∧
      (∀ strategy, ExactAll G s (goals strategy) (expanded strategy)) ∧
      (goals .breadthFirst).Perm (goals .depthFirst) := by
  have hR : ∀ labels t, G.Walk s labels t → t ∈ hfin.toFinset :=
    fun _ _ hw => hfin.mem_toFinset.mpr hw.reaches
  choose result hends hfirst using first_settles hR
  choose goals expanded hall using all_settles hR
  have hexact : ∀ strategy, ExactAll G s (goals strategy) (expanded strategy) :=
    fun strategy => (all_ends (hall strategy _ (Nat.lt_succ_self _))).exactAll
  refine ⟨_, result, goals, expanded, fun strategy looks hlooks =>
    ⟨hfirst strategy looks hlooks, hall strategy looks hlooks⟩, fun strategy => ?_, hexact, ?_⟩
  · have hend : (result strategy).Ends G strategy s :=
      hfirst strategy _ (Nat.lt_succ_self _) ▸ first_ends G strategy _ s
    exact hend.exact (hends strategy)
  · apply (List.perm_ext_iff_of_nodup (hexact _).goals_nodup (hexact _).goals_nodup).mpr
    intro t
    rw [(hexact .breadthFirst).mem_goals_iff, (hexact .depthFirst).mem_goals_iff]

/-- The theorem at a graph with circles, repeated steps and two goals, one of them behind the
other. -/
theorem exact_of_finite_circle :
    let G : Graph Nat Unit :=
      ⟨fun n => [((), (n + 1) % 6), ((), 2 * n % 6), ((), 2 * n % 6)], fun n => n == 3 || n == 4⟩
    {t | G.Reaches 1 t}.Finite ∧
      ∃ (enough : Nat) (result : Strategy → SearchResult Nat Unit)
        (goals expanded : Strategy → List Nat),
        (∀ strategy, ∀ looks ≥ enough, first G strategy looks (start 1) = result strategy ∧
          all G strategy looks [] (start 1) = some (goals strategy, expanded strategy)) ∧
        (∀ strategy, (result strategy).Exact G 1) ∧
        (∀ strategy, ExactAll G 1 (goals strategy) (expanded strategy)) ∧
        (goals .breadthFirst).Perm (goals .depthFirst) := by
  intro G
  have hbound : ∀ t, G.Reaches 1 t → t < 6 := by
    intro t ht
    induction ht with
    | refl => decide
    | @tail t u _ hstep _ =>
      obtain ⟨e, he⟩ := hstep
      simp only [G, List.mem_cons, Prod.mk.injEq, List.not_mem_nil, or_false] at he
      omega
  have hfin : {t | G.Reaches 1 t}.Finite := (Set.finite_lt_nat 6).subset hbound
  exact ⟨hfin, exact_of_finite G 1 hfin⟩

end Search

end Parsing
