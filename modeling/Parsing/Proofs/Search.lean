/-
# Searches

A walk from a state takes steps of the graph and passes no goal on its way. A search looks at one
path of the frontier after the other. If the state of the path is a goal met before or a state
expanded before, the path is dropped; else a goal is put with the goals met, and any other state is
expanded (`Search.Gathered`). A search for one goal does the same until it meets the first.

Two things are kept on the way, in whatever order the frontier is worked off. What has come up so
far is at the end of a walk, in its place and there only once (`Search.Gathering`). And no walk gets
lost: it stays among what has been expanded or comes to a path of the frontier (`Search.Covers`).
How this path compares with the walk depends on the strategy and is left open; that it is no longer,
for one, is true breadth-first.

A search that ends, ends where it has come to on its way (`Search.first_ends`, `Search.all_ends`).
So the path to a goal that is found is a walk, and when the frontier is empty, every walk has stayed
among states that have come up (`Search.first_tells`). That a search ends is seen from a number that
goes down with each look (`Search.first_finishes`, `Search.all_finishes`).

Key definitions: `Graph.Walk`, `Search.Reached`, `Search.Gathered`, `Search.Gathering`,
`Search.Covers`, `SearchResult.Ends`, `SearchResult.Tells`.
Key theorems: `Search.Gathered.gathering`, `Search.Covers.of_walk`, `Search.first_tells`,
`Search.first_add`, `Search.first_finishes`, `Search.all_finishes`.
-/
import Parsing.Search

namespace Parsing

variable {σ ε : Type} {G : Graph σ ε} {s t : σ}

/-- Whether steps with the given labels, latest first, lead from `s` to the state. No step leaves
a goal. -/
inductive Graph.Walk (G : Graph σ ε) (s : σ) : List ε → σ → Prop
  | start : G.Walk s [] s
  | step {labels : List ε} {t u : σ} {e : ε} (h : G.Walk s labels t)
      (ht : G.isGoal t = false) (he : (e, u) ∈ G.steps t) : G.Walk s (e :: labels) u

/-- What the end of a search from `s` tells about walks to goals. -/
def SearchResult.Tells (G : Graph σ ε) (s : σ) : SearchResult σ ε → Prop
  | .found p _ => G.Walk s p.labels p.state ∧ G.isGoal p.state = true
  | .absent _ => ∀ labels t, G.Walk s labels t → G.isGoal t = false
  | .unfinished => True

theorem Strategy.mem_extend {α : Type} (strategy : Strategy) {x : α} {fresh frontier : List α} :
    x ∈ strategy.extend fresh frontier ↔ x ∈ fresh ∨ x ∈ frontier := by
  cases strategy <;> simp [extend, or_comm]

namespace Search

variable {goals expanded : List σ} {S : Search σ ε} {p : Path σ ε} {rest : List (Path σ ε)}

/-! ### What a search goes through -/

section

variable [DecidableEq σ] {strategy : Strategy}

theorem expand_of_mem (strategy : Strategy) (h : p.state ∈ expanded) :
    expand G strategy p ⟨rest, expanded⟩ = ⟨rest, expanded⟩ := by
  unfold expand
  exact if_pos h

theorem expand_of_notMem (strategy : Strategy) (h : p.state ∉ expanded) :
    expand G strategy p ⟨rest, expanded⟩ =
      ⟨strategy.extend (fresh G p (p.state :: expanded)) rest, p.state :: expanded⟩ := by
  unfold expand
  exact if_neg h

/-- The searches that a search from `s` goes through until a goal is next on the frontier. -/
inductive Reached (G : Graph σ ε) (strategy : Strategy) (s : σ) : Search σ ε → Prop
  | start : Reached G strategy s (Search.start s)
  | look {p : Path σ ε} {rest : List (Path σ ε)} {expanded : List σ}
      (h : Reached G strategy s ⟨p :: rest, expanded⟩) (hgoal : G.isGoal p.state = false) :
      Reached G strategy s (Search.expand G strategy p ⟨rest, expanded⟩)

/-- The searches that a search for all goals from `s` goes through, each with the goals met so
far, latest first. A look drops a path whose state came up before, meets a goal, or expands a
state. -/
inductive Gathered (G : Graph σ ε) (strategy : Strategy) (s : σ) : List σ → Search σ ε → Prop
  | start : Gathered G strategy s [] (Search.start s)
  | again {goals : List σ} {p : Path σ ε} {rest : List (Path σ ε)} {expanded : List σ}
      (h : Gathered G strategy s goals ⟨p :: rest, expanded⟩)
      (hp : p.state ∈ goals ∨ p.state ∈ expanded) : Gathered G strategy s goals ⟨rest, expanded⟩
  | meet {goals : List σ} {p : Path σ ε} {rest : List (Path σ ε)} {expanded : List σ}
      (h : Gathered G strategy s goals ⟨p :: rest, expanded⟩) (hgoal : G.isGoal p.state = true)
      (hp : p.state ∉ goals) : Gathered G strategy s (p.state :: goals) ⟨rest, expanded⟩
  | enter {goals : List σ} {p : Path σ ε} {rest : List (Path σ ε)} {expanded : List σ}
      (h : Gathered G strategy s goals ⟨p :: rest, expanded⟩) (hgoal : G.isGoal p.state = false)
      (hp : p.state ∉ expanded) : Gathered G strategy s goals
        ⟨strategy.extend (fresh G p (p.state :: expanded)) rest, p.state :: expanded⟩

/-- A goal is met unless it was met before. -/
theorem Gathered.gather (h : Gathered G strategy s goals ⟨p :: rest, expanded⟩)
    (hgoal : G.isGoal p.state = true) :
    Gathered G strategy s (if p.state ∈ goals then goals else p.state :: goals)
      ⟨rest, expanded⟩ := by
  by_cases hp : p.state ∈ goals
  · rw [if_pos hp]
    exact h.again (.inl hp)
  · rw [if_neg hp]
    exact h.meet hgoal hp

/-- A state that is no goal is expanded unless it was expanded before. -/
theorem Gathered.expand (h : Gathered G strategy s goals ⟨p :: rest, expanded⟩)
    (hgoal : G.isGoal p.state = false) :
    Gathered G strategy s goals (Search.expand G strategy p ⟨rest, expanded⟩) := by
  by_cases hp : p.state ∈ expanded
  · rw [expand_of_mem strategy hp]
    exact h.again (.inr hp)
  · rw [expand_of_notMem strategy hp]
    exact h.enter hgoal hp

/-- A search for one goal goes through what a search for all goals goes through before the
first. -/
theorem Reached.gathered (h : Reached G strategy s S) : Gathered G strategy s [] S := by
  induction h with
  | start => exact .start
  | look _ hgoal ih => exact ih.expand hgoal

/-- A path that is fresh takes one step more. -/
theorem mem_fresh {q : Path σ ε} :
    q ∈ fresh G p expanded ↔
      ∃ e, (e, q.state) ∈ G.steps p.state ∧ q.state ∉ expanded ∧ q.labels = e :: p.labels := by
  obtain ⟨u, labels⟩ := q
  simp only [fresh, List.mem_map, List.mem_filter, decide_eq_true_eq]
  constructor
  · rintro ⟨⟨e, u⟩, ⟨he, hu⟩, heq⟩
    cases heq
    exact ⟨e, he, hu, rfl⟩
  · rintro ⟨e, he, hu, rfl⟩
    exact ⟨(e, u), ⟨he, hu⟩, rfl⟩

end

/-! ### What has come up -/

/-- What a search from `s` has met, expanded and put on the frontier. -/
structure Gathering (G : Graph σ ε) (s : σ) (goals : List σ) (S : Search σ ε) : Prop where
  walks : ∀ p ∈ S.frontier, G.Walk s p.labels p.state
  met : ∀ t ∈ goals, G.isGoal t = true ∧ ∃ labels, G.Walk s labels t
  entered : ∀ t ∈ S.expanded, G.isGoal t = false ∧ ∃ labels, G.Walk s labels t
  goals_nodup : goals.Nodup
  expanded_nodup : S.expanded.Nodup

/-- **What has come up is at the end of a walk, in its place and there only once.** -/
theorem Gathered.gathering [DecidableEq σ] {strategy : Strategy}
    (h : Gathered G strategy s goals S) : Gathering G s goals S := by
  induction h with
  | start =>
    refine ⟨fun p hp => ?_, nofun, nofun, .nil, .nil⟩
    rw [List.mem_singleton.mp hp]
    exact .start
  | again _ _ ih =>
    exact ⟨fun q hq => ih.walks q (List.mem_cons_of_mem _ hq), ih.met, ih.entered,
      ih.goals_nodup, ih.expanded_nodup⟩
  | @meet goals p rest expanded _ hgoal hp ih =>
    have hwalk := ih.walks p List.mem_cons_self
    refine ⟨fun q hq => ih.walks q (List.mem_cons_of_mem _ hq), fun t ht => ?_, ih.entered,
      List.nodup_cons.mpr ⟨hp, ih.goals_nodup⟩, ih.expanded_nodup⟩
    rcases List.mem_cons.mp ht with rfl | ht
    · exact ⟨hgoal, p.labels, hwalk⟩
    · exact ih.met t ht
  | @enter goals p rest expanded _ hgoal hp ih =>
    have hwalk := ih.walks p List.mem_cons_self
    refine ⟨fun q hq => ?_, ih.met, fun t ht => ?_, ih.goals_nodup,
      List.nodup_cons.mpr ⟨hp, ih.expanded_nodup⟩⟩
    · rcases strategy.mem_extend.mp hq with hq | hq
      · obtain ⟨e, he, -, hlabels⟩ := mem_fresh.mp hq
        rw [hlabels]
        exact .step hwalk hgoal he
      · exact ih.walks q (List.mem_cons_of_mem _ hq)
    · rcases List.mem_cons.mp ht with rfl | ht
      · exact ⟨hgoal, p.labels, hwalk⟩
      · exact ih.entered t ht

theorem Gathering.notMem_expanded (h : Gathering G s goals S) (hgoal : G.isGoal t = true) :
    t ∉ S.expanded := fun ht => by
  rw [(h.entered t ht).1] at hgoal
  cases hgoal

theorem Gathering.notMem_goals (h : Gathering G s goals S) (hplain : G.isGoal t = false) :
    t ∉ goals := fun ht => by
  rw [(h.met t ht).1] at hplain
  cases hplain

/-! ### No walk gets lost -/

/-- Whether the state is a goal met, has been expanded, or is where a path of the frontier with
property `P` ends. -/
def Seen (goals : List σ) (S : Search σ ε) (P : Path σ ε → Prop) (t : σ) : Prop :=
  t ∈ goals ∨ t ∈ S.expanded ∨ ∃ q ∈ S.frontier, q.state = t ∧ P q

/-- What has been seen stays seen if a path leaves the frontier only when its state is with the
goals or the expanded states. -/
theorem Seen.mono {goals' : List σ} {S' : Search σ ε} {P : Path σ ε → Prop}
    (h : Seen goals S P t) (hgoals : goals ⊆ goals') (hexpanded : S.expanded ⊆ S'.expanded)
    (hfrontier : ∀ q ∈ S.frontier, q ∈ S'.frontier ∨ q.state ∈ goals' ∨ q.state ∈ S'.expanded) :
    Seen goals' S' P t := by
  rcases h with ht | ht | ⟨q, hq, rfl, hP⟩
  · exact .inl (hgoals ht)
  · exact .inr (.inl (hexpanded ht))
  · rcases hfrontier q hq with hq | hq | hq
    · exact .inr (.inr ⟨q, hq, rfl, hP⟩)
    · exact .inl hq
    · exact .inr (.inl hq)

/-- Whether every walk from `s` that leaves the expanded states by one step has then come to a
goal met or to the end of a path of the frontier. `near labels q` tells how the path `q` may
compare with a walk with these labels. -/
structure Covers (near : List ε → Path σ ε → Prop) (G : Graph σ ε) (s : σ) (goals : List σ)
    (S : Search σ ε) : Prop where
  start : Seen goals S (near []) s
  steps : ∀ labels t, G.Walk s labels t → t ∈ S.expanded → ∀ e u, (e, u) ∈ G.steps t →
    Seen goals S (near (e :: labels)) u

namespace Covers

variable {near : List ε → Path σ ε → Prop}

theorem start_of (hnear : near [] ⟨s, []⟩) : Covers near G s [] (Search.start s) where
  start := .inr (.inr ⟨⟨s, []⟩, List.mem_singleton_self _, rfl, hnear⟩)
  steps _ _ _ ht := nomatch ht

/-- A path can leave the frontier when its state is with the goals met or the expanded states. -/
theorem drop {goals' : List σ} (h : Covers near G s goals ⟨p :: rest, expanded⟩)
    (hgoals : goals ⊆ goals') (hp : p.state ∈ goals' ∨ p.state ∈ expanded) :
    Covers near G s goals' ⟨rest, expanded⟩ := by
  have hseen : ∀ {P t}, Seen goals ⟨p :: rest, expanded⟩ P t →
      Seen goals' ⟨rest, expanded⟩ P t := by
    refine fun h => h.mono hgoals (List.Subset.refl _) fun q hq => ?_
    rcases List.mem_cons.mp hq with rfl | hq
    · exact .inr hp
    · exact .inl hq
  exact ⟨hseen h.start, fun labels t hw ht e u he => hseen (h.steps labels t hw ht e u he)⟩

theorem again (h : Covers near G s goals ⟨p :: rest, expanded⟩)
    (hp : p.state ∈ goals ∨ p.state ∈ expanded) : Covers near G s goals ⟨rest, expanded⟩ :=
  h.drop (List.Subset.refl _) hp

theorem meet (h : Covers near G s goals ⟨p :: rest, expanded⟩) :
    Covers near G s (p.state :: goals) ⟨rest, expanded⟩ :=
  h.drop (List.subset_cons_self _ _) (.inl List.mem_cons_self)

/-- A state that is expanded leaves the frontier to what its steps lead to, if its path is near
enough to every walk that comes to it. -/
theorem enter [DecidableEq σ] (strategy : Strategy)
    (h : Covers near G s goals ⟨p :: rest, expanded⟩)
    (hnear : ∀ labels, G.Walk s labels p.state → ∀ e u,
      near (e :: labels) ⟨u, e :: p.labels⟩) :
    Covers near G s goals
      ⟨strategy.extend (fresh G p (p.state :: expanded)) rest, p.state :: expanded⟩ := by
  have hseen : ∀ {P t}, Seen goals ⟨p :: rest, expanded⟩ P t → Seen goals
      ⟨strategy.extend (fresh G p (p.state :: expanded)) rest, p.state :: expanded⟩ P t := by
    refine fun h => h.mono (List.Subset.refl _) (List.subset_cons_self _ _) fun q hq => ?_
    rcases List.mem_cons.mp hq with rfl | hq
    · exact .inr (.inr List.mem_cons_self)
    · exact .inl (strategy.mem_extend.mpr (.inr hq))
  refine ⟨hseen h.start, fun labels t hw ht e u he => ?_⟩
  rcases List.mem_cons.mp ht with rfl | ht
  · by_cases hu : u ∈ p.state :: expanded
    · exact .inr (.inl hu)
    · refine .inr (.inr ⟨⟨u, e :: p.labels⟩, strategy.mem_extend.mpr (.inl ?_), rfl, ?_⟩)
      · exact mem_fresh.mpr ⟨e, he, hu, rfl⟩
      · exact hnear labels hw e u
  · exact hseen (h.steps labels t hw ht e u he)

/-- **A walk stays among the expanded states or comes to a path of the frontier.** -/
theorem of_walk (h : Covers near G s goals S) (hgoals : ∀ t ∈ goals, G.isGoal t = true)
    {labels : List ε} (hw : G.Walk s labels t) :
    t ∈ goals ∨ t ∈ S.expanded ∨ ∃ q ∈ S.frontier, ∃ first, first <:+ labels ∧ near first q := by
  have hseen : ∀ {labels t}, Seen goals S (near labels) t → t ∈ goals ∨ t ∈ S.expanded ∨
      ∃ q ∈ S.frontier, ∃ first, first <:+ labels ∧ near first q :=
    fun h => h.imp_right <| .imp_right fun ⟨q, hq, _, hn⟩ => ⟨q, hq, _, List.suffix_refl _, hn⟩
  induction hw with
  | start => exact hseen h.start
  | @step labels t u e hw ht he ih =>
    rcases ih with hmet | hexpanded | ⟨q, hq, first, hfirst, hn⟩
    · -- no step leaves a goal
      rw [hgoals t hmet] at ht
      cases ht
    · exact hseen (h.steps labels t hw hexpanded e u he)
    · exact .inr (.inr ⟨q, hq, first, hfirst.trans (List.suffix_cons e labels), hn⟩)

end Covers

/-- Whatever the strategy, no walk gets lost. -/
theorem Gathered.covers [DecidableEq σ] {strategy : Strategy}
    (h : Gathered G strategy s goals S) : Covers (fun _ _ => True) G s goals S := by
  induction h with
  | start => exact .start_of trivial
  | again _ hp ih => exact ih.again hp
  | meet _ _ _ ih => exact ih.meet
  | enter _ _ _ ih => exact ih.enter strategy fun _ _ _ _ => trivial

/-- Where the frontier is empty, walks have come to nothing but goals met and expanded states. -/
theorem Gathered.mem_of_walk [DecidableEq σ] {strategy : Strategy}
    (h : Gathered G strategy s goals ⟨[], expanded⟩) {labels : List ε} (hw : G.Walk s labels t) :
    t ∈ goals ∨ t ∈ expanded := by
  rcases h.covers.of_walk (fun t ht => (h.gathering.met t ht).1) hw with ht | ht | ⟨q, hq, -⟩
  · exact .inl ht
  · exact .inr ht
  · cases hq

/-! ### How a search ends -/

section

variable [DecidableEq σ] {strategy : Strategy} {looks : Nat}

theorem first_nil (strategy : Strategy) (looks : Nat) :
    first G strategy looks ⟨[], expanded⟩ = .absent expanded.reverse := by
  cases looks <;> rfl

theorem first_cons :
    first G strategy (looks + 1) ⟨p :: rest, expanded⟩ =
      if G.isGoal p.state then .found p expanded.reverse
      else first G strategy looks (expand G strategy p ⟨rest, expanded⟩) := rfl

theorem all_cons :
    all G strategy (looks + 1) goals ⟨p :: rest, expanded⟩ =
      if G.isGoal p.state then
        all G strategy looks (if p.state ∈ goals then goals else p.state :: goals)
          ⟨rest, expanded⟩
      else all G strategy looks goals (expand G strategy p ⟨rest, expanded⟩) := rfl

theorem all_nil :
    all G strategy looks goals ⟨[], expanded⟩ = some (goals.reverse, expanded.reverse) := by
  cases looks <;> rfl

/-- **A search for one goal that has come to an end ends in the same way with more looks.** -/
theorem first_add (strategy : Strategy) (more : Nat) : ∀ (looks : Nat) {S : Search σ ε},
    first G strategy looks S ≠ .unfinished →
    first G strategy (looks + more) S = first G strategy looks S
  | looks, ⟨[], _⟩, _ => by rw [first_nil, first_nil]
  | 0, ⟨_ :: _, _⟩, h => absurd rfl h
  | looks + 1, ⟨p :: rest, expanded⟩, h => by
    rw [first_cons] at h
    rw [Nat.add_right_comm, first_cons, first_cons]
    split at h
    · next hgoal => rw [if_pos hgoal, if_pos hgoal]
    · next hgoal => rw [if_neg hgoal, if_neg hgoal, first_add strategy more looks h]

theorem first_of_le {looks' : Nat} (h : first G strategy looks S ≠ .unfinished)
    (hle : looks ≤ looks') : first G strategy looks' S = first G strategy looks S := by
  obtain ⟨more, rfl⟩ := Nat.exists_eq_add_of_le hle
  exact first_add strategy more looks h

/-- A search for all goals that has come to an end ends in the same way with more looks. -/
theorem all_of_le {answer : List σ × List σ} : ∀ {looks looks' : Nat} {goals : List σ}
    {S : Search σ ε}, all G strategy looks goals S = some answer → looks ≤ looks' →
    all G strategy looks' goals S = some answer
  | looks, looks', _, ⟨[], _⟩, h, _ => by
    rw [all_nil] at h ⊢
    exact h
  | looks + 1, looks' + 1, goals, ⟨p :: rest, expanded⟩, h, hle => by
    rw [all_cons] at h ⊢
    split at h
    · next hgoal => rw [if_pos hgoal, all_of_le h (Nat.le_of_succ_le_succ hle)]
    · next hgoal => rw [if_neg hgoal, all_of_le h (Nat.le_of_succ_le_succ hle)]

end

end Search

/-- Where a search for one goal from `s` stands when it ends: it goes through what a search for
all goals goes through before the first. -/
def SearchResult.Ends [DecidableEq σ] (G : Graph σ ε) (strategy : Strategy) (s : σ) :
    SearchResult σ ε → Prop
  | .found p expanded => G.isGoal p.state = true ∧
      ∃ rest, Search.Gathered G strategy s [] ⟨p :: rest, expanded.reverse⟩
  | .absent expanded => Search.Gathered G strategy s [] ⟨[], expanded.reverse⟩
  | .unfinished => True

theorem SearchResult.Ends.tells [DecidableEq σ] {strategy : Strategy} {result : SearchResult σ ε}
    (h : result.Ends G strategy s) : result.Tells G s := by
  cases result with
  | found p expanded =>
    obtain ⟨hgoal, rest, h⟩ := h
    exact ⟨h.gathering.walks p List.mem_cons_self, hgoal⟩
  | absent expanded =>
    intro labels t hw
    rcases Search.Gathered.mem_of_walk h hw with hmem | hmem
    · cases hmem
    · exact ((Search.Gathered.gathering h).entered t hmem).1
  | unfinished => trivial

namespace Search

variable [DecidableEq σ] {strategy : Strategy} {goals expanded : List σ}

theorem Gathered.first_ends : ∀ (looks : Nat) {S : Search σ ε}, Gathered G strategy s [] S →
    (first G strategy looks S).Ends G strategy s
  | looks, ⟨[], expanded⟩, h => by
    rw [first_nil]
    show Gathered G strategy s [] ⟨[], expanded.reverse.reverse⟩
    rwa [List.reverse_reverse]
  | 0, ⟨_ :: _, _⟩, _ => trivial
  | looks + 1, ⟨p :: rest, expanded⟩, h => by
    rw [first_cons]
    split
    · next hgoal =>
      refine ⟨hgoal, rest, ?_⟩
      rwa [List.reverse_reverse]
    · next hgoal => exact Gathered.first_ends looks (h.expand (Bool.not_eq_true _ ▸ hgoal))

/-- **A search for one goal ends where it has come to**: at a goal or with an empty frontier. -/
theorem first_ends (G : Graph σ ε) (strategy : Strategy) (looks : Nat) (s : σ) :
    (first G strategy looks (start s)).Ends G strategy s :=
  Gathered.first_ends looks .start

/-- **A search for one goal tells the truth when it ends.** The path that it finds is a walk to a
goal, and if it finds none, no walk leads to a goal. -/
theorem first_tells (G : Graph σ ε) (strategy : Strategy) (looks : Nat) (s : σ) :
    (first G strategy looks (start s)).Tells G s :=
  (first_ends G strategy looks s).tells

theorem Gathered.all_ends : ∀ (looks : Nat) {goals : List σ} {S : Search σ ε} {found : List σ},
    Gathered G strategy s goals S → all G strategy looks goals S = some (found, expanded) →
    Gathered G strategy s found.reverse ⟨[], expanded.reverse⟩
  | looks, goals, ⟨[], expanded⟩, found, h, hend => by
    rw [all_nil] at hend
    cases hend
    rwa [List.reverse_reverse, List.reverse_reverse]
  | 0, _, ⟨_ :: _, _⟩, _, _, hend => nomatch hend
  | looks + 1, goals, ⟨p :: rest, expanded⟩, found, h, hend => by
    rw [all_cons] at hend
    split at hend
    · next hgoal => exact Gathered.all_ends looks (h.gather hgoal) hend
    · next hgoal => exact Gathered.all_ends looks (h.expand (Bool.not_eq_true _ ▸ hgoal)) hend

/-- **A search for all goals ends where it has come to**: with an empty frontier. -/
theorem all_ends {looks : Nat} {found : List σ}
    (hend : all G strategy looks [] (start s) = some (found, expanded)) :
    Gathered G strategy s found.reverse ⟨[], expanded.reverse⟩ :=
  Gathered.all_ends looks .start hend

/-! ### That a search ends -/

/-- **A search for one goal ends** if some number goes down with each look before the last. -/
theorem first_finishes (measure : Search σ ε → Nat)
    (hlook : ∀ p rest expanded, Gathered G strategy s [] ⟨p :: rest, expanded⟩ →
      measure (expand G strategy p ⟨rest, expanded⟩) < measure ⟨p :: rest, expanded⟩) :
    ∀ (looks : Nat) {S : Search σ ε}, Gathered G strategy s [] S → measure S < looks →
    first G strategy looks S ≠ .unfinished
  | looks, ⟨[], expanded⟩, h, _ => by
    rw [first_nil]
    exact nofun
  | looks + 1, ⟨p :: rest, expanded⟩, h, hlt => by
    rw [first_cons]
    split
    · exact nofun
    · next hgoal =>
      have hless := hlook p rest expanded h
      exact first_finishes measure hlook looks (h.expand (Bool.not_eq_true _ ▸ hgoal)) (by omega)

/-- **A search for all goals ends** if some number goes down with each look. -/
theorem all_finishes (measure : Search σ ε → Nat)
    (hlook : ∀ goals p rest expanded, Gathered G strategy s goals ⟨p :: rest, expanded⟩ →
      measure (expand G strategy p ⟨rest, expanded⟩) < measure ⟨p :: rest, expanded⟩)
    (hmeet : ∀ p rest expanded,
      measure ⟨rest, expanded⟩ < measure (⟨p :: rest, expanded⟩ : Search σ ε)) :
    ∀ (looks : Nat) {goals : List σ} {S : Search σ ε}, Gathered G strategy s goals S →
    measure S < looks → ∃ found expanded, all G strategy looks goals S = some (found, expanded)
  | looks, goals, ⟨[], expanded⟩, h, _ => ⟨goals.reverse, expanded.reverse, all_nil⟩
  | looks + 1, goals, ⟨p :: rest, expanded⟩, h, hlt => by
    rw [all_cons]
    split
    · next hgoal =>
      have hless := hmeet p rest expanded
      exact all_finishes measure hlook hmeet looks (h.gather hgoal) (by omega)
    · next hgoal =>
      have hless := hlook goals p rest expanded h
      exact all_finishes measure hlook hmeet looks (h.expand (Bool.not_eq_true _ ▸ hgoal))
        (by omega)

end Search

end Parsing
