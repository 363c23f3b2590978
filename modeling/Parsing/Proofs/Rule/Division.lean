/-
# Dividing a rule line

The form of a rule line is the regular expression `^\s*(\S+)\s*->(.*)$`, a pattern of five parts:
blanks, the left-hand side, blanks, an arrow, and what is left, without a line feed. A part that is a
run of characters of one class takes as many as there are, and gives them back one by one as long as
the parts behind it do not fit. So the ways to fit a line to the pattern have an order
(`divisions`), and the first one counts.

Blanks are never given back with success, for what comes behind them is not blank; and no character
is given back from the end. Only the left-hand side is shortened, until an arrow follows it, and
when the first arrow that is met has a line feed behind it, so have all others. This is what
`Rule.ofLine` computes.

Key definitions: `Rule.takes`, `Rule.endings`, `Rule.sidings`, `Rule.divisions`,
`Rule.runSides?`.
Key theorems: `Rule.flatMap_takes`, `Rule.head?_divisions`, `Rule.ofLine_eq`.
-/
import Mathlib.Data.List.TakeWhile
import Parsing.Proofs.Text
import Parsing.Rule.Line

namespace Parsing.Rule

open Text

/-- The ways to take a repetition of a class from the front, the longest first, and what each
leaves. -/
def takes (p : Char → Bool) : List Char → List (List Char × List Char)
  | [] => [([], [])]
  | c :: cs =>
    if p c then (takes p cs).map (Prod.map (c :: ·) id) ++ [([], c :: cs)] else [([], c :: cs)]

/-- The ways to take a repetition that is not empty. -/
def takesSome (p : Char → Bool) : List Char → List (List Char × List Char)
  | [] => []
  | c :: cs => if p c then (takes p cs).map (Prod.map (c :: ·) id) else []

/-- The ways to fit `\s*->(.*)$`: the group. -/
def endings (cs : List Char) : List (List Char) :=
  (takes isBlank cs).flatMap fun gap =>
    (afterArrow? gap.2).toList.flatMap fun after =>
      (takes (· != '\n') after).flatMap fun rhs => if rhs.2 = [] then [rhs.1] else []

/-- The ways to go on behind the ways to take a left-hand side. -/
def sidings (ways : List (List Char × List Char)) : List (List Char × List Char) :=
  ways.flatMap fun lhs => (endings lhs.2).map fun rhs => (lhs.1, rhs)

/-- The matches of the pattern in the order in which they are tried, each with its two groups: the
left-hand side and the text after the arrow. -/
def divisions (line : List Char) : List (List Char × List Char) :=
  (takes isBlank line).flatMap fun margin => sidings (takesSome (fun c => !isBlank c) margin.2)

variable {β : Type} {p : Char → Bool} {c : Char} {cs run rest after : List Char}

/-! ### Runs -/

theorem takes_cons_of_pos (h : p c = true) (cs : List Char) :
    takes p (c :: cs) = (takes p cs).map (Prod.map (c :: ·) id) ++ [([], c :: cs)] := by
  simp [takes, h]

theorem takes_of_neg (h : ∀ c ∈ cs.head?, p c = false) : takes p cs = [([], cs)] := by
  cases cs with
  | nil => rfl
  | cons c cs =>
    have hc : p c = false := h c rfl
    simp [takes, hc]

/-- **A run gives nothing back** when what comes behind it does not fit to the characters of its
class. -/
theorem flatMap_takes {k : List Char × List Char → List β}
    (hk : ∀ run c cs, p c = true → k (run, c :: cs) = []) (cs : List Char) :
    (takes p cs).flatMap k = k (cs.takeWhile p, cs.dropWhile p) := by
  induction cs generalizing k with
  | nil => simp [takes]
  | cons c cs ih =>
    by_cases hc : p c = true
    · rw [takes_cons_of_pos hc, List.flatMap_append, List.flatMap_map, List.flatMap_singleton,
        hk _ c cs hc, List.append_nil,
        ih fun run d ds hd => hk (c :: run) d ds hd,
        List.takeWhile_cons_of_pos hc, List.dropWhile_cons_of_pos hc]
      rfl
    · rw [takes_of_neg (by simpa using hc), List.flatMap_singleton, List.takeWhile_cons_of_neg hc,
        List.dropWhile_cons_of_neg hc]

/-! ### Arrows -/

theorem afterArrow?_of_isBlank (h : isBlank c = true) (cs : List Char) :
    afterArrow? (c :: cs) = none := by
  unfold afterArrow?
  split
  · next heq =>
    obtain ⟨rfl, -⟩ := List.cons_eq_cons.mp heq
    exact absurd h (by decide)
  · rfl

theorem subset_of_afterArrow? (h : afterArrow? cs = some after) : after ⊆ cs := by
  unfold afterArrow? at h
  split at h
  · obtain rfl := Option.some.inj h
    exact List.subset_cons_of_subset _ (List.subset_cons_self _ _)
  · cases h

/-- An arrow that begins in a run of characters ends in it, if a blank follows. -/
theorem afterArrow?_append (hrest : ∀ d ∈ rest.head?, isBlank d = true) (c : Char)
    (run : List Char) :
    afterArrow? (c :: run ++ rest) = (afterArrow? (c :: run)).map (· ++ rest) := by
  cases run with
  | nil =>
    have hnone : afterArrow? [c] = none := by unfold afterArrow?; split <;> simp_all
    rw [hnone, Option.map_none]
    unfold afterArrow?
    split
    · next heq =>
      obtain ⟨-, rfl⟩ := List.cons_eq_cons.mp heq
      exact absurd (hrest '>' rfl) (by decide)
    · rfl
  | cons d run =>
    by_cases h : c = '-' ∧ d = '>'
    · obtain ⟨rfl, rfl⟩ := h
      rfl
    · have hnone : ∀ ds, afterArrow? (c :: d :: ds) = none := by
        intro ds
        unfold afterArrow?
        split
        · next heq =>
          simp only [List.cons.injEq] at heq
          exact absurd ⟨heq.1, heq.2.1⟩ h
        · rfl
      rw [List.cons_append, List.cons_append, hnone, hnone, Option.map_none]

theorem subset_of_splitLastArrow? {p : List Char × List Char} (h : splitLastArrow? cs = some p) :
    p.1 ⊆ cs ∧ p.2 ⊆ cs := by
  induction cs generalizing p with
  | nil => cases h
  | cons c cs ih =>
    rw [splitLastArrow?] at h
    split at h
    · next before after hsplit =>
      obtain rfl := Option.some.inj h
      obtain ⟨hbefore, hafter⟩ := ih hsplit
      exact ⟨List.cons_subset_cons c hbefore, List.subset_cons_of_subset c hafter⟩
    · obtain ⟨after, harrow, rfl⟩ := Option.map_eq_some_iff.mp h
      exact ⟨List.nil_subset _, subset_of_afterArrow? harrow⟩

/-! ### The first division -/

/-- Whether a text ends before a line feed. -/
def oneLine (cs : List Char) : Bool := decide ('\n' ∉ cs)

/-- There is at most one way to go on behind the left-hand side. -/
theorem endings_eq (cs : List Char) :
    endings cs = ((afterArrow? (cs.dropWhile isBlank)).filter oneLine).toList := by
  rw [endings, flatMap_takes fun run c cs hc => by rw [afterArrow?_of_isBlank hc]; rfl]
  cases afterArrow? (cs.dropWhile isBlank) with
  | none => rfl
  | some after =>
    rw [Option.toList_some, List.flatMap_singleton, flatMap_takes fun run c cs _ => by simp]
    by_cases hfeed : '\n' ∈ after
    · have hne : after.dropWhile (· != '\n') ≠ [] := fun h => by
        simpa using List.dropWhile_eq_nil_iff.mp h _ hfeed
      simp [hne, oneLine, hfeed, Option.filter_some]
    · have hall : ∀ c ∈ after, (c != '\n') = true := fun c hc =>
        bne_iff_ne.mpr (ne_of_mem_of_not_mem hc hfeed)
      simp [List.dropWhile_eq_nil_iff.mpr hall, List.takeWhile_eq_self_iff.mpr hall, oneLine, hfeed,
        Option.filter_some]

/-- The sides of a run of characters that are not blank and what comes behind it. -/
def runSides? (run rest : List Char) : Option (List Char × List Char) :=
  match afterArrow? (rest.dropWhile isBlank) with
  | some after => some (run, after)
  | none => (splitLastArrow? run).map fun p => (p.1, p.2 ++ rest)

theorem runSides?_cons (c : Char) (run rest : List Char) : runSides? (c :: run) rest =
    ((runSides? run rest).map (Prod.map (c :: ·) id)).or
      ((afterArrow? (c :: run)).map fun after => ([], after ++ rest)) := by
  unfold runSides?
  cases afterArrow? (rest.dropWhile isBlank) with
  | some after => rfl
  | none =>
    rw [splitLastArrow?]
    cases splitLastArrow? run with
    | some p => rfl
    | none => simp [Function.comp_def]

/-- The left-hand side is taken from the run. -/
theorem subset_of_runSides? {p : List Char × List Char} (h : runSides? run rest = some p) :
    p.1 ⊆ run := by
  unfold runSides? at h
  split at h
  · obtain rfl := Option.some.inj h
    exact List.Subset.refl _
  · obtain ⟨q, hsplit, rfl⟩ := Option.map_eq_some_iff.mp h
    exact (subset_of_splitLastArrow? hsplit).1

/-- A line feed behind the arrow stands behind the run. -/
theorem newline_mem_of_runSides? (hrun : ∀ c ∈ run, isBlank c = false)
    {p : List Char × List Char} (h : runSides? run rest = some p) (hp : '\n' ∈ p.2) :
    '\n' ∈ rest := by
  unfold runSides? at h
  split at h
  · next after harrow =>
    obtain rfl := Option.some.inj h
    exact (List.dropWhile_suffix _).subset (subset_of_afterArrow? harrow hp)
  · obtain ⟨q, hsplit, rfl⟩ := Option.map_eq_some_iff.mp h
    refine (List.mem_append.mp hp).resolve_left fun hfeed => ?_
    exact Bool.false_ne_true ((hrun _ ((subset_of_splitLastArrow? hsplit).2 hfeed)).symm.trans
      isBlank_newline)

theorem sidings_map_cons (c : Char) (ways : List (List Char × List Char)) :
    sidings (ways.map (Prod.map (c :: ·) id)) = (sidings ways).map (Prod.map (c :: ·) id) := by
  simp [sidings, List.flatMap_map, List.map_flatMap, Function.comp_def]

theorem sidings_singleton (lhs cs : List Char) :
    sidings [(lhs, cs)] = (endings cs).map fun rhs => (lhs, rhs) := by simp [sidings]

/-- **The first way to shorten a run**: by induction on the run. The ways to shorten what is behind
its first character come first, and when the first arrow that they meet has a line feed behind it,
the arrow that is left to the last has one too. -/
theorem head?_sidings (hrun : ∀ c ∈ run, isBlank c = false)
    (hrest : ∀ d ∈ rest.head?, isBlank d = true) :
    (sidings (takes (fun c => !isBlank c) (run ++ rest))).head? =
      (runSides? run rest).filter (oneLine ·.2) := by
  induction run with
  | nil =>
    rw [List.nil_append, takes_of_neg fun d hd => by simp [hrest d hd], sidings_singleton,
      endings_eq, runSides?]
    cases afterArrow? (rest.dropWhile isBlank) with
    | none => rfl
    | some after => by_cases h : oneLine after = true <;> simp [h, Option.filter_some]
  | cons c run ih =>
    obtain ⟨hc, hrun⟩ := List.forall_mem_cons.mp hrun
    have hlast : endings (c :: (run ++ rest)) =
        (((afterArrow? (c :: run)).map (· ++ rest)).filter oneLine).toList := by
      rw [endings_eq, List.dropWhile_cons_of_neg (by simp [hc]), ← List.cons_append,
        afterArrow?_append hrest]
    rw [List.cons_append, takes_cons_of_pos (by simp [hc]), sidings, List.flatMap_append, ← sidings,
      ← sidings, sidings_map_cons, sidings_singleton, List.head?_append, List.head?_map, ih hrun,
      hlast, runSides?_cons]
    cases hsides : runSides? run rest with
    | none =>
      cases afterArrow? (c :: run) with
      | none => rfl
      | some after => by_cases h : oneLine (after ++ rest) = true <;> simp [h, Option.filter_some]
    | some p =>
      by_cases hfeed : '\n' ∈ p.2
      · have hmem := newline_mem_of_runSides? hrun hsides hfeed
        cases afterArrow? (c :: run) <;> simp [oneLine, hfeed, hmem, Option.filter_some]
      · simp [oneLine, hfeed, Option.filter_some]

theorem isBlank_of_dropWhile {line : List Char} (h : line.dropWhile isBlank = c :: cs) :
    isBlank c = false :=
  head?_dropWhile_eq_false isBlank line c (by rw [h]; rfl)

theorem sides?_of_cons {line : List Char} (h : line.dropWhile isBlank = c :: cs) : sides? line =
    (runSides? (cs.takeWhile fun c => !isBlank c) (cs.dropWhile fun c => !isBlank c)).map
      (Prod.map (c :: ·) id) := by
  have hc := isBlank_of_dropWhile h
  rw [sides?, h, List.takeWhile_cons_of_pos (by simp [hc]), List.dropWhile_cons_of_pos (by simp [hc])]
  unfold runSides?
  dsimp only
  cases afterArrow? ((cs.dropWhile fun c => !isBlank c).dropWhile isBlank) with
  | some after => rfl
  | none => simp [Function.comp_def]

/-- The left-hand side is a run of characters that are not blank. -/
theorem isBlank_of_sides? {line : List Char} {p : List Char × List Char}
    (h : sides? line = some p) : p.1 ≠ [] ∧ ∀ c ∈ p.1, isBlank c = false := by
  cases hbody : line.dropWhile isBlank with
  | nil => simp [sides?, hbody] at h
  | cons c cs =>
    rw [sides?_of_cons hbody] at h
    obtain ⟨q, hsides, rfl⟩ := Option.map_eq_some_iff.mp h
    refine ⟨List.cons_ne_nil _ _, List.forall_mem_cons.mpr ⟨isBlank_of_dropWhile hbody, ?_⟩⟩
    intro d hd
    simpa using List.mem_takeWhile_imp (subset_of_runSides? hsides hd)

/-- **The sides of a line are its first division**, if that has no line feed behind the arrow. -/
theorem head?_divisions (line : List Char) :
    (divisions line).head? = (sides? line).filter (oneLine ·.2) := by
  have hstuck : ∀ c cs, isBlank c = true → takesSome (fun c => !isBlank c) (c :: cs) = [] :=
    fun c cs hc => by simp [takesSome, hc]
  rw [divisions, flatMap_takes fun run c cs hc => by rw [hstuck c cs hc]; rfl]
  cases hbody : line.dropWhile isBlank with
  | nil => simp [sides?, hbody, takesSome, sidings]
  | cons c cs =>
    have hc := isBlank_of_dropWhile hbody
    have hrun : ∀ d ∈ cs.takeWhile fun c => !isBlank c, isBlank d = false := fun d hd => by
      simpa using List.mem_takeWhile_imp hd
    have hrest : ∀ d ∈ (cs.dropWhile fun c => !isBlank c).head?, isBlank d = true := fun d hd => by
      simpa using head?_dropWhile_eq_false (fun c => !isBlank c) cs d hd
    have hfirst := head?_sidings hrun hrest
    rw [List.takeWhile_append_dropWhile] at hfirst
    rw [takesSome, if_pos (by simp [hc]), sidings_map_cons, List.head?_map, hfirst,
      sides?_of_cons hbody, Option.filter_map]
    rfl

/-- Of the arrows in one run the last is met first. -/
example : divisions [' ', 'a', '-', '>', 'b', '-', '>', ' ', 'c'] =
    [(['a', '-', '>', 'b'], [' ', 'c']), (['a'], ['b', '-', '>', ' ', 'c'])] := by decide

/-- **A rule line is read by its first division.** -/
theorem ofLine_eq (line : String) : ofLine line =
    match (divisions line.toList).head? with
    | some (lhs, rhs) => .ok ⟨String.ofList lhs, (words rhs).map String.ofList⟩
    | none => .error (.ruleLine line) := by
  rw [ofLine, head?_divisions]
  cases sides? line.toList with
  | none => rfl
  | some p => by_cases h : '\n' ∈ p.2 <;> simp [oneLine, h, Option.filter_some]

end Parsing.Rule
