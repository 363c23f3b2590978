/-
# Reports

What the engines tell about their work. A step is a move of the algorithm, a
detail is what follows from it; a reader chooses how much to see.

Key definitions: `Level`, `Report`, `Verbosity`, `Verbosity.select`.
-/
namespace Parsing

/-- How weighty a report is. -/
inductive Level
  | step
  | detail
deriving DecidableEq

/-- A line of report. -/
structure Report where
  level : Level
  text : String
deriving DecidableEq

/-- How much is to be seen: nothing, the steps, or the steps with their details. -/
inductive Verbosity
  | quiet
  | steps
  | items
deriving DecidableEq

namespace Verbosity

/-- Whether reports of the level are to be seen. -/
def shows : Verbosity → Level → Bool
  | quiet, _ => false
  | steps, level => level = .step
  | items, _ => true

/-- The reports that are to be seen, in order. -/
def select (v : Verbosity) (rs : List Report) : List Report := rs.filter fun r => v.shows r.level

end Verbosity

end Parsing
