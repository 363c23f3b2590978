/-
# Depth-first search is recursive

Told as a recursion, depth-first search visits states. A visit to a goal meets it, unless it was
met before. A visit to any other state enters it, unless it was entered before, and then makes a
visit to each state that its steps lead to, from the last step to the first (`Graph.visit`). What
comes up on the way is put into a log.

The search itself keeps a frontier instead, whose youngest path is looked at next. The states of
the frontier are the visits that are still to be made, from the innermost call to the outermost,
save for visits that come to nothing: a state that was entered before is not put on the frontier.
It may be entered after it was put there, once or more; but a log only grows, so the visit to it
comes to nothing too when its turn comes (`Graph.visit_of_entered`).

So look by look the search does what is left of the recursion
(`Search.Logged.visitAll_expand`), and a search for one goal does the same up to its first goal.

Key definitions: `Stop`, `Graph.visit`, `Graph.visitAll`, `Search.Logged`.
Key theorems: `Graph.visit_of_le`, `Graph.visitAll_filter`, `Search.Logged.visitAll_expand`,
`Search.Logged.recounts`, `Search.depthFirst_visits`.
-/
import Parsing.Proofs.Search.Finite

namespace Parsing

variable {σ ε : Type}

/-! ### Logs -/

/-- What comes up in a search: a goal that is met, or a state that is entered, which is to mark it
and to expand it. -/
inductive Stop (σ : Type)
  | goal (t : σ)
  | entry (t : σ)
deriving DecidableEq

namespace Stop

/-- The goal, if the stop is one. -/
def goal? : Stop σ → Option σ
  | goal t => some t
  | entry _ => none

/-- The state entered, if the stop is no goal. -/
def entry? : Stop σ → Option σ
  | goal _ => none
  | entry t => some t

/-- The goals of a log, in order. -/
def goals (log : List (Stop σ)) : List σ := log.filterMap goal?

/-- The states entered, in order. -/
def entries (log : List (Stop σ)) : List σ := log.filterMap entry?

/-- The first goal of a log, and the states entered before it. -/
def firstGoal : List (Stop σ) → Option σ × List σ
  | [] => (none, [])
  | goal t :: _ => (some t, [])
  | entry t :: log => ((firstGoal log).1, t :: (firstGoal log).2)

variable {log log' : List (Stop σ)} {t : σ}

theorem goal_mem_iff : goal t ∈ log ↔ t ∈ goals log := by
  simp only [goals, List.mem_filterMap]
  constructor
  · exact fun h => ⟨_, h, rfl⟩
  · rintro ⟨a | a, h, ha⟩
    · exact Option.some.inj ha ▸ h
    · cases ha

theorem entry_mem_iff : entry t ∈ log ↔ t ∈ entries log := by
  simp only [entries, List.mem_filterMap]
  constructor
  · exact fun h => ⟨_, h, rfl⟩
  · rintro ⟨a | a, h, ha⟩
    · cases ha
    · exact Option.some.inj ha ▸ h

@[simp] theorem goals_concat_goal (log : List (Stop σ)) (t : σ) :
    goals (log ++ [goal t]) = goals log ++ [t] := List.filterMap_append

@[simp] theorem goals_concat_entry (log : List (Stop σ)) (t : σ) :
    goals (log ++ [entry t]) = goals log :=
  List.filterMap_append.trans (List.append_nil _)

@[simp] theorem entries_concat_goal (log : List (Stop σ)) (t : σ) :
    entries (log ++ [goal t]) = entries log :=
  List.filterMap_append.trans (List.append_nil _)

@[simp] theorem entries_concat_entry (log : List (Stop σ)) (t : σ) :
    entries (log ++ [entry t]) = entries log ++ [t] := List.filterMap_append

theorem firstGoal_of_goals_eq_nil (h : goals log = []) : firstGoal log = (none, entries log) := by
  induction log with
  | nil => rfl
  | cons a log ih =>
    cases a with
    | goal t => cases h
    | entry t =>
      rw [firstGoal, ih h]
      rfl

/-- The first goal stands behind entries alone. -/
theorem firstGoal_of_prefix (h : goals log = []) (hlog : log ++ [goal t] <+: log') :
    firstGoal log' = (some t, entries log) := by
  obtain ⟨more, rfl⟩ := hlog
  induction log with
  | nil => rfl
  | cons a log ih =>
    cases a with
    | goal t => cases h
    | entry u =>
      have ih := ih h
      rw [List.cons_append, List.cons_append, firstGoal, ih]
      rfl

end Stop

/-! ### Visits -/

namespace Graph

variable [DecidableEq σ] {G : Graph σ ε} {depth depth' : Nat} {log log' : List (Stop σ)}
  {t : σ} {ts : List σ}

/-- The log of a visit to the state, behind the log of what came before. `none` if visits would
stand more than `depth` deep one inside the other. -/
def visit (G : Graph σ ε) : (depth : Nat) → (log : List (Stop σ)) → σ → Option (List (Stop σ))
  | 0, _, _ => none
  | depth + 1, log, t =>
    if G.isGoal t then some (if .goal t ∈ log then log else log ++ [.goal t])
    else if .entry t ∈ log then some log
    else ((G.steps t).map (·.2)).reverse.foldlM (G.visit depth) (log ++ [.entry t])

/-- The log of visits to the states one after the other. -/
def visitAll (G : Graph σ ε) (depth : Nat) (log : List (Stop σ)) (ts : List σ) :
    Option (List (Stop σ)) := ts.foldlM (G.visit depth) log

theorem visitAll_nil : G.visitAll depth log [] = some log := rfl

theorem visitAll_cons_eq_some_iff : G.visitAll depth log (t :: ts) = some log' ↔
    ∃ log₁, G.visit depth log t = some log₁ ∧ G.visitAll depth log₁ ts = some log' := by
  rw [visitAll, List.foldlM_cons]
  exact Option.bind_eq_some_iff

theorem visitAll_append_eq_some_iff {us : List σ} : G.visitAll depth log (ts ++ us) = some log' ↔
    ∃ log₁, G.visitAll depth log ts = some log₁ ∧ G.visitAll depth log₁ us = some log' := by
  rw [visitAll, List.foldlM_append]
  exact Option.bind_eq_some_iff

theorem visit_of_goal (h : G.isGoal t = true) :
    G.visit (depth + 1) log t = some (if .goal t ∈ log then log else log ++ [.goal t]) := by
  rw [visit, if_pos h]

/-- A visit to a state that was entered before comes to nothing. -/
theorem visit_of_entered (h : G.isGoal t = false) (ht : .entry t ∈ log) :
    G.visit (depth + 1) log t = some log := by
  rw [visit, if_neg (by simp [h]), if_pos ht]

theorem visit_of_new (h : G.isGoal t = false) (ht : .entry t ∉ log) :
    G.visit (depth + 1) log t =
      G.visitAll depth (log ++ [.entry t]) ((G.steps t).map (·.2)).reverse := by
  rw [visit, if_neg (by simp [h]), if_neg ht]
  rfl

theorem visitAll_mono
    (h : ∀ {log t log'}, G.visit depth log t = some log' → G.visit depth' log t = some log') :
    ∀ {ts : List σ} {log log' : List (Stop σ)}, G.visitAll depth log ts = some log' →
      G.visitAll depth' log ts = some log'
  | [], _, _, hall => hall
  | _ :: _, _, _, hall => by
    obtain ⟨log₁, hvisit, hrest⟩ := visitAll_cons_eq_some_iff.mp hall
    exact visitAll_cons_eq_some_iff.mpr ⟨log₁, h hvisit, visitAll_mono h hrest⟩

/-- **A visit that comes to an end comes to the same with more depth.** -/
theorem visit_of_le : ∀ {depth depth' : Nat} {log log' : List (Stop σ)} {t : σ},
    G.visit depth log t = some log' → depth ≤ depth' → G.visit depth' log t = some log'
  | depth + 1, depth' + 1, log, log', t, h, hle => by
    by_cases hgoal : G.isGoal t = true
    · rw [visit_of_goal hgoal] at h ⊢
      exact h
    · have hplain := Bool.not_eq_true _ ▸ hgoal
      by_cases hmem : .entry t ∈ log
      · rw [visit_of_entered hplain hmem] at h ⊢
        exact h
      · rw [visit_of_new hplain hmem] at h ⊢
        exact visitAll_mono (fun hvisit => visit_of_le hvisit (Nat.le_of_succ_le_succ hle)) h

theorem visitAll_of_le (h : G.visitAll depth log ts = some log') (hle : depth ≤ depth') :
    G.visitAll depth' log ts = some log' :=
  visitAll_mono (fun hvisit => visit_of_le hvisit hle) h

theorem prefix_of_visitAll (h : ∀ {log t log'}, G.visit depth log t = some log' → log <+: log') :
    ∀ {ts : List σ} {log log' : List (Stop σ)}, G.visitAll depth log ts = some log' → log <+: log'
  | [], _, _, hall => by
    rw [visitAll_nil] at hall
    exact Option.some.inj hall ▸ List.prefix_refl _
  | _ :: _, _, _, hall => by
    obtain ⟨log₁, hvisit, hrest⟩ := visitAll_cons_eq_some_iff.mp hall
    exact (h hvisit).trans (prefix_of_visitAll h hrest)

/-- **A log only grows.** -/
theorem prefix_of_visit : ∀ {depth : Nat} {log log' : List (Stop σ)} {t : σ},
    G.visit depth log t = some log' → log <+: log'
  | depth + 1, log, log', t, h => by
    by_cases hgoal : G.isGoal t = true
    · rw [visit_of_goal hgoal] at h
      rw [← Option.some.inj h]
      split
      · exact List.prefix_refl _
      · exact List.prefix_append _ _
    · have hplain := Bool.not_eq_true _ ▸ hgoal
      by_cases hmem : .entry t ∈ log
      · rw [visit_of_entered hplain hmem] at h
        exact Option.some.inj h ▸ List.prefix_refl _
      · rw [visit_of_new hplain hmem] at h
        exact (List.prefix_append _ _).trans (prefix_of_visitAll prefix_of_visit h)

/-- Visits to states entered before may be left out. -/
theorem visitAll_filter (keep : σ → Bool) : ∀ {ts : List σ} {log : List (Stop σ)},
    (∀ t ∈ ts, keep t = false → .entry t ∈ log ∧ G.isGoal t = false) →
    G.visitAll (depth + 1) log (ts.filter keep) = G.visitAll (depth + 1) log ts
  | [], _, _ => rfl
  | t :: ts, log, h => by
    have hts : ∀ u ∈ ts, keep u = false → .entry u ∈ log ∧ G.isGoal u = false :=
      fun u hu => h u (List.mem_cons_of_mem _ hu)
    by_cases ht : keep t = true
    · rw [List.filter_cons_of_pos ht, visitAll, visitAll, List.foldlM_cons, List.foldlM_cons]
      cases hvisit : G.visit (depth + 1) log t with
      | none => rfl
      | some log₁ =>
        have hlog := (prefix_of_visit hvisit).subset
        exact visitAll_filter keep fun u hu hkeep => (hts u hu hkeep).imp_left fun hmem => hlog hmem
    · obtain ⟨hmem, hplain⟩ := h t List.mem_cons_self (Bool.not_eq_true _ ▸ ht)
      rw [List.filter_cons_of_neg ht, visitAll_filter keep hts, visitAll, visitAll,
        List.foldlM_cons, visit_of_entered hplain hmem]
      rfl

end Graph

/-- What a search for one goal answers: the goal found, if there is one, and the states
expanded. -/
def SearchResult.answer? : SearchResult σ ε → Option (Option σ × List σ)
  | .found p expanded => some (some p.state, expanded)
  | .absent expanded => some (none, expanded)
  | .unfinished => none

namespace Search

variable {G : Graph σ ε} {log log' : List (Stop σ)} {goals expanded : List σ}

/-- Whether the log tells the goals that a search has met and the states that it has expanded,
none of which is a goal. -/
structure Logged (G : Graph σ ε) (log : List (Stop σ)) (goals expanded : List σ) : Prop where
  goals_eq : Stop.goals log = goals.reverse
  entries_eq : Stop.entries log = expanded.reverse
  plain : ∀ t ∈ expanded, G.isGoal t = false

namespace Logged

theorem nil (G : Graph σ ε) : Logged G [] [] [] := ⟨rfl, rfl, nofun⟩

theorem goal_mem_iff (h : Logged G log goals expanded) {t : σ} : .goal t ∈ log ↔ t ∈ goals := by
  rw [Stop.goal_mem_iff, h.goals_eq, List.mem_reverse]

theorem entry_mem_iff (h : Logged G log goals expanded) {t : σ} :
    .entry t ∈ log ↔ t ∈ expanded := by
  rw [Stop.entry_mem_iff, h.entries_eq, List.mem_reverse]

theorem meet (h : Logged G log goals expanded) (t : σ) :
    Logged G (log ++ [.goal t]) (t :: goals) expanded where
  goals_eq := by rw [Stop.goals_concat_goal, h.goals_eq, List.reverse_cons]
  entries_eq := by rw [Stop.entries_concat_goal, h.entries_eq]
  plain := h.plain

theorem enter (h : Logged G log goals expanded) {t : σ} (ht : G.isGoal t = false) :
    Logged G (log ++ [.entry t]) goals (t :: expanded) where
  goals_eq := by rw [Stop.goals_concat_entry, h.goals_eq]
  entries_eq := by rw [Stop.entries_concat_entry, h.entries_eq, List.reverse_cons]
  plain := List.forall_mem_cons.mpr ⟨ht, h.plain⟩

variable [DecidableEq σ] {depth : Nat} {p : Path σ ε} {rest : List (Path σ ε)}

/-- **The fresh paths of a state are the visits that its steps call for**, the last first, save for
visits that come to nothing. -/
theorem visitAll_fresh (h : Logged G log goals expanded) :
    G.visitAll (depth + 1) log ((fresh G p expanded).reverse.map (·.state)) =
      G.visitAll (depth + 1) log ((G.steps p.state).map (·.2)).reverse := by
  have hstates : (fresh G p expanded).reverse.map (·.state) =
      ((G.steps p.state).map (·.2)).reverse.filter fun t => t ∉ expanded := by
    simp only [fresh, List.map_reverse, List.map_map, List.filter_reverse, List.filter_map]
    rfl
  rw [hstates]
  refine Graph.visitAll_filter _ fun t _ ht => ?_
  have ht : t ∈ expanded := by simpa using ht
  exact ⟨h.entry_mem_iff.mpr ht, h.plain t ht⟩

/-- **Expanding a state puts the visits that it calls for before those that were left.** -/
theorem visitAll_expand (h : Logged G log goals expanded) (hgoal : G.isGoal p.state = false)
    (hp : p.state ∉ expanded)
    (hall : G.visitAll (depth + 1) (log ++ [.entry p.state])
      ((expand G .depthFirst p ⟨rest, expanded⟩).frontier.map (·.state)) = some log') :
    G.visitAll (depth + 2) log ((p :: rest).map (·.state)) = some log' := by
  rw [expand_of_notMem .depthFirst hp] at hall
  simp only [Strategy.extend, List.map_append] at hall
  obtain ⟨log₁, hfresh, hrest⟩ := Graph.visitAll_append_eq_some_iff.mp hall
  rw [(h.enter hgoal).visitAll_fresh] at hfresh
  have hnew : .entry p.state ∉ log := fun hmem => hp (h.entry_mem_iff.mp hmem)
  refine Graph.visitAll_cons_eq_some_iff.mpr ⟨log₁, ?_, ?_⟩
  · rw [Graph.visit_of_new hgoal hnew, hfresh]
  · exact Graph.visitAll_of_le hrest (Nat.le_succ _)

/-- **A search does what is left of the recursion.** Where it has come to on the way to its end,
the visits to the states of the frontier log the goals and the states expanded that it is to answer;
and if no goal has been met yet, the same log tells what a search for one goal is to answer. -/
theorem recounts : ∀ (looks : Nat) {log : List (Stop σ)} {goals : List σ} {S : Search σ ε}
    {found expanded : List σ}, Logged G log goals S.expanded →
    all G .depthFirst looks goals S = some (found, expanded) →
    ∃ log', G.visitAll (looks + 1) log (S.frontier.map (·.state)) = some log' ∧
      Stop.goals log' = found ∧ Stop.entries log' = expanded ∧
      (goals = [] → (first G .depthFirst looks S).answer? = some (Stop.firstGoal log'))
  | looks, log, goals, ⟨[], before⟩, found, expanded, h, hend => by
    rw [all_nil] at hend
    obtain ⟨hfound, hexpanded⟩ := Prod.mk.inj (Option.some.inj hend)
    refine ⟨log, rfl, h.goals_eq.trans hfound, h.entries_eq.trans hexpanded, ?_⟩
    rintro rfl
    rw [first_nil, Stop.firstGoal_of_goals_eq_nil h.goals_eq, h.entries_eq]
    rfl
  | 0, _, _, ⟨_ :: _, _⟩, _, _, _, hend => nomatch hend
  | looks + 1, log, goals, ⟨p :: rest, before⟩, found, expanded, h, hend => by
    rw [all_cons] at hend
    rw [first_cons]
    by_cases hgoal : G.isGoal p.state = true
    · rw [if_pos hgoal] at hend ⊢
      have hlogged : Logged G (if .goal p.state ∈ log then log else log ++ [.goal p.state])
          (if p.state ∈ goals then goals else p.state :: goals) before := by
        by_cases hmet : p.state ∈ goals
        · rwa [if_pos hmet, if_pos (h.goal_mem_iff.mpr hmet)]
        · rw [if_neg hmet, if_neg (mt h.goal_mem_iff.mp hmet)]
          exact h.meet p.state
      obtain ⟨log', hall, hfound, hexpanded, -⟩ := hlogged.recounts looks hend
      refine ⟨log', ?_, hfound, hexpanded, ?_⟩
      · exact Graph.visitAll_cons_eq_some_iff.mpr
          ⟨_, Graph.visit_of_goal hgoal, Graph.visitAll_of_le hall (Nat.le_succ _)⟩
      · rintro rfl
        have hnone : Stop.goals log = [] := h.goals_eq
        rw [if_neg (mt h.goal_mem_iff.mp List.not_mem_nil)] at hall
        rw [Stop.firstGoal_of_prefix hnone (Graph.prefix_of_visitAll Graph.prefix_of_visit hall),
          h.entries_eq]
        rfl
    · have hplain : G.isGoal p.state = false := Bool.not_eq_true _ ▸ hgoal
      rw [if_neg hgoal] at hend ⊢
      by_cases hp : p.state ∈ before
      · rw [expand_of_mem .depthFirst hp] at hend ⊢
        have hlogged : Logged G log goals (Search.mk rest before).expanded := h
        obtain ⟨log', hall, htold⟩ := hlogged.recounts looks hend
        refine ⟨log', ?_, htold⟩
        exact Graph.visitAll_cons_eq_some_iff.mpr ⟨log,
          Graph.visit_of_entered hplain (h.entry_mem_iff.mpr hp),
          Graph.visitAll_of_le hall (Nat.le_succ _)⟩
      · have hlogged : Logged G (log ++ [.entry p.state]) goals
            (expand G .depthFirst p ⟨rest, before⟩).expanded := by
          rw [expand_of_notMem .depthFirst hp]
          exact h.enter hplain
        obtain ⟨log', hall, htold⟩ := recounts looks hlogged hend
        exact ⟨log', h.visitAll_expand hplain hp hall, htold⟩

end Logged

variable [DecidableEq σ]

/-- **Depth-first search is recursive.** Where finitely many states are reached, the visit to the
start comes to an end. The search for all goals expands the states that the visit enters, in the
order in which it enters them, and gives the goals in the order in which it meets them. The search
for one goal expands the states that the visit enters before it meets its first goal, and finds
this goal; if the visit meets none, it expands all that are entered and finds none. More looks
change nothing, nor does more depth. -/
theorem depthFirst_visits (G : Graph σ ε) (s : σ) (hfin : {t | G.Reaches s t}.Finite) :
    ∃ (enough : Nat) (log : List (Stop σ)),
      (∀ depth ≥ enough, G.visit depth [] s = some log) ∧
      (∀ looks ≥ enough,
        all G .depthFirst looks [] (start s) = some (Stop.goals log, Stop.entries log)) ∧
      ∀ looks ≥ enough,
        (first G .depthFirst looks (start s)).answer? = some (Stop.firstGoal log) := by
  have hR : ∀ labels t, G.Walk s labels t → t ∈ hfin.toFinset :=
    fun _ _ hw => hfin.mem_toFinset.mpr hw.reaches
  obtain ⟨found, expanded, hend⟩ := all_settles hR .depthFirst
  obtain ⟨result, hresult, hfirst⟩ := first_settles hR .depthFirst
  let looks := due G hfin.toFinset (start s : Search σ ε) + 1
  have hlooks : looks > due G hfin.toFinset (start s : Search σ ε) := Nat.lt_succ_self _
  have hstart : Logged G [] [] (start s : Search σ ε).expanded := .nil G
  obtain ⟨log, hall, rfl, rfl, hanswer⟩ := hstart.recounts looks (hend looks hlooks)
  have hvisit : G.visit (looks + 1) [] s = some log := by
    obtain ⟨log₁, hvisit, hrest⟩ := Graph.visitAll_cons_eq_some_iff.mp hall
    rw [hvisit, Option.some.inj hrest]
  refine ⟨looks + 1, log, fun depth hdepth => Graph.visit_of_le hvisit hdepth,
    fun more hmore => hend more (by omega), fun more hmore => ?_⟩
  rw [hfirst more (by omega), ← hfirst looks hlooks]
  exact hanswer rfl

/-- The theorem at a graph with circles, repeated steps and two goals. Two steps lead from 1 to 2
and the last one to 4, so 2 waits twice until all else has come up. -/
theorem depthFirst_visits_circle :
    let G : Graph Nat Unit :=
      ⟨fun n => [((), 2 * n % 7), ((), (n + 1) % 7), ((), (n + 3) % 7)], fun n => n == 0 || n == 6⟩
    {t | G.Reaches 1 t}.Finite ∧ ∃ enough,
      (∀ looks ≥ enough,
        all G .depthFirst looks [] (start 1) = some ([0, 6], [1, 4, 5, 3, 2])) ∧
      ∀ looks ≥ enough,
        (first G .depthFirst looks (start 1)).answer? = some (some 0, [1, 4]) := by
  intro G
  have hbound : ∀ t, G.Reaches 1 t → t < 7 := by
    intro t ht
    induction ht with
    | refl => decide
    | @tail t u _ hstep _ =>
      obtain ⟨e, he⟩ := hstep
      simp only [G, List.mem_cons, Prod.mk.injEq, List.not_mem_nil, or_false] at he
      omega
  have hfin : {t | G.Reaches 1 t}.Finite := (Set.finite_lt_nat 7).subset hbound
  obtain ⟨enough, log, hvisit, hall, hfirst⟩ := depthFirst_visits G 1 hfin
  have hlog : G.visit 6 [] 1 =
      some [.entry 1, .entry 4, .goal 0, .entry 5, .goal 6, .entry 3, .entry 2] := by decide
  have hmore := Graph.visit_of_le hlog (Nat.le_add_right 6 enough)
  rw [hvisit _ (Nat.le_add_left enough 6)] at hmore
  obtain rfl := Option.some.inj hmore
  exact ⟨hfin, enough, hall, hfirst⟩

end Search

end Parsing
