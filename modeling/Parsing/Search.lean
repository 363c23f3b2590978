/-
# Search in a graph

A graph is given by the steps that lead out of a state and by its goals; it may be
infinite. A search keeps a frontier of states to look at, each with the path that
led there, and expands no state twice. Breadth-first search looks at the oldest
state of the frontier, depth-first search at the youngest. A goal is never
expanded. A search is given a number of looks; one that has not come to an end by
then says so.

Key definitions: `Graph`, `Strategy`, `Path`, `Search`, `Search.first`, `Search.all`.
-/
namespace Parsing

/-- A graph with labelled steps and goals. -/
structure Graph (σ ε : Type) where
  steps : σ → List (ε × σ)
  isGoal : σ → Bool

/-- In which order a search takes states from the frontier. -/
inductive Strategy
  | breadthFirst
  | depthFirst
deriving DecidableEq

/-- A state and the labels of the steps to it, latest first. -/
structure Path (σ ε : Type) where
  state : σ
  labels : List ε
deriving DecidableEq

/-- The frontier, next path first, after fresh paths have come in. -/
def Strategy.extend {α : Type} : Strategy → (fresh frontier : List α) → List α
  | breadthFirst, fresh, frontier => frontier ++ fresh
  | depthFirst, fresh, frontier => fresh.reverse ++ frontier

/-- A search under way: the frontier, next path first, and the states expanded, latest
first. -/
structure Search (σ ε : Type) where
  frontier : List (Path σ ε)
  expanded : List σ

/-- How a search for one goal ends: with the path to a goal, without one, or not within
the looks it was given. The states expanded are in order. -/
inductive SearchResult (σ ε : Type)
  | found (path : Path σ ε) (expanded : List σ)
  | absent (expanded : List σ)
  | unfinished

namespace Search

variable {σ ε : Type} [DecidableEq σ]

/-- The search before its first look. -/
def start (s : σ) : Search σ ε := ⟨[⟨s, []⟩], []⟩

/-- The paths that go on from the given one to states not expanded yet. -/
def fresh (G : Graph σ ε) (p : Path σ ε) (expanded : List σ) : List (Path σ ε) :=
  ((G.steps p.state).filter fun e => e.2 ∉ expanded).map fun e => ⟨e.2, e.1 :: p.labels⟩

/-- Expands the state of a path that has just left the frontier, unless it was expanded
before. -/
def expand (G : Graph σ ε) (strategy : Strategy) (p : Path σ ε) (s : Search σ ε) : Search σ ε :=
  if p.state ∈ s.expanded then s
  else ⟨strategy.extend (fresh G p (p.state :: s.expanded)) s.frontier, p.state :: s.expanded⟩

/-- Looks for one goal, at no more than the given number of states. -/
def first (G : Graph σ ε) (strategy : Strategy) : (looks : Nat) → Search σ ε → SearchResult σ ε
  | 0, s => if s.frontier.isEmpty then .absent s.expanded.reverse else .unfinished
  | looks + 1, s =>
    match s.frontier with
    | [] => .absent s.expanded.reverse
    | p :: rest =>
      if G.isGoal p.state then .found p s.expanded.reverse
      else first G strategy looks (expand G strategy p ⟨rest, s.expanded⟩)

/-- Looks for all goals, at no more than the given number of states. Gives the goals, each
once, and the states expanded, both in order; `goals` are those found before, latest
first. -/
def all (G : Graph σ ε) (strategy : Strategy) :
    (looks : Nat) → (goals : List σ) → Search σ ε → Option (List σ × List σ)
  | 0, goals, s => if s.frontier.isEmpty then some (goals.reverse, s.expanded.reverse) else none
  | looks + 1, goals, s =>
    match s.frontier with
    | [] => some (goals.reverse, s.expanded.reverse)
    | p :: rest =>
      if G.isGoal p.state then
        all G strategy looks (if p.state ∈ goals then goals else p.state :: goals)
          ⟨rest, s.expanded⟩
      else all G strategy looks goals (expand G strategy p ⟨rest, s.expanded⟩)

end Search

end Parsing
