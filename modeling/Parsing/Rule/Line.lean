/-
# A rule on a line of its own

The form `lhs -> x y z`, without comments, quotes or alternatives: the left-hand
side is a run of characters that are not blank, and the right-hand side is what
stands between blanks after the arrow. The form is that of the regular expression

  `^\s*(\S+)\s*->(.*)$`

whose two groups are the left-hand side and the text that the right-hand side is taken
from. These rules of regular expressions are taken over:
* a match is found leftmost first, as by trying: each repetition takes as much as it
  can, and gives back one character after the other while what follows it does not fit;
* `\s` is a character of Unicode's `White_Space`, `\S` any other;
* `.` is any character but a line feed;
* `^` and `$` fit only at the beginning and at the end of the whole text.

So the left-hand side is as long as the line allows: an arrow inside a run of
characters separates the sides only when no arrow follows the run, and then the last
one does.

Key definitions: `Rule.sides?`, `Rule.ofLine`.
-/
import Parsing.Source.Load
import Parsing.Text.Words

namespace Parsing.Rule

open Text

/-- What follows an arrow at the start of the text. -/
def afterArrow? : List Char → Option (List Char)
  | '-' :: '>' :: rest => some rest
  | _ => none

/-- The text before the last arrow and the text after it. -/
def splitLastArrow? : List Char → Option (List Char × List Char)
  | [] => none
  | c :: cs =>
    match splitLastArrow? cs with
    | some (before, after) => some (c :: before, after)
    | none => (afterArrow? (c :: cs)).map fun after => ([], after)

/-- The two sides of a rule line: the left-hand side, and the text after the arrow. -/
def sides? (line : List Char) : Option (List Char × List Char) :=
  let body := line.dropWhile isBlank
  let rest := body.dropWhile fun c => !isBlank c
  match body.takeWhile fun c => !isBlank c with
  | [] => none
  | c :: run =>
    match afterArrow? (rest.dropWhile isBlank) with
    | some after => some (c :: run, after)
    | none => (splitLastArrow? run).map fun p => (c :: p.1, p.2 ++ rest)

/-- The rule that a line holds. The right-hand side may not go on after a line feed. -/
def ofLine (line : String) : Except LoadError Rule :=
  match sides? line.toList with
  | some (lhs, after) =>
    if '\n' ∈ after then .error (.ruleLine line)
    else .ok ⟨String.ofList lhs, (words after).map String.ofList⟩
  | none => .error (.ruleLine line)

end Parsing.Rule
