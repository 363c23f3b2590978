/-
# Classes of characters

The classes of characters that grammar text is read by are those of Unicode: each is told in ASCII by
itself, and beyond ASCII by a table of inclusive ranges of code points. Two classes have no character
in common when they have none in ASCII and no range of one table meets a range of the other.

A character is blank when Unicode gives it the property `White_Space`. The class is wider than
`Char.isWhitespace` (`isBlank_of_isWhitespace`): it holds the vertical tab, the form feed, the
no-break space and the line separators.

Key definitions: `Ranges`, `Ranges.contains`, `Ranges.apart`, `isBlank`.
Key theorems: `eq_false_of_apart`.
-/
namespace Parsing.Text

/-- A set of characters, as inclusive ranges of code points. -/
abbrev Ranges := List (Nat × Nat)

namespace Ranges

variable {rs rs' : Ranges} {c : Char}

/-- Whether the code point of `c` lies in one of the ranges. -/
def contains (rs : Ranges) (c : Char) : Bool :=
  rs.any fun r => decide (r.1 ≤ c.toNat) && decide (c.toNat ≤ r.2)

/-- Whether no range of one table meets a range of the other. -/
def apart (rs rs' : Ranges) : Bool :=
  rs.all fun r => rs'.all fun r' => Nat.blt r.2 r'.1 || Nat.blt r'.2 r.1

theorem contains_iff : rs.contains c = true ↔ ∃ r ∈ rs, r.1 ≤ c.toNat ∧ c.toNat ≤ r.2 := by
  simp [contains]

theorem contains_eq_false_of_apart (h : apart rs rs' = true) (hc : rs.contains c = true) :
    rs'.contains c = false := by
  rw [← Bool.not_eq_true, contains_iff]
  rintro ⟨r', hr', hlo', hhi'⟩
  obtain ⟨r, hr, hlo, hhi⟩ := contains_iff.mp hc
  have hapart := List.all_eq_true.mp (List.all_eq_true.mp h r hr) r' hr'
  simp only [Bool.or_eq_true, Nat.blt_eq] at hapart
  omega

end Ranges

/-- **Two classes have no character in common** if they have none in ASCII and their tables do not
meet. -/
theorem eq_false_of_apart (p q : Char → Bool) {rs rs' : Ranges} {c : Char}
    (hp : ∀ c, ¬ c.toNat < 0x80 → p c = rs.contains c)
    (hq : ∀ c, ¬ c.toNat < 0x80 → q c = rs'.contains c)
    (hascii : ∀ n < 0x80, p (Char.ofNat n) = true → q (Char.ofNat n) = false)
    (hapart : Ranges.apart rs rs' = true) (h : p c = true) : q c = false := by
  by_cases hc : c.toNat < 0x80
  · have := hascii c.toNat hc
    rw [Char.ofNat_toNat] at this
    exact this h
  · rw [hq c hc]
    exact Ranges.contains_eq_false_of_apart hapart (hp c hc ▸ h)

/-- A character of a class is none that does not belong to it. -/
theorem ne_of_class {p : Char → Bool} {c d : Char} (h : p c = true) (hd : p d = false) : c ≠ d := by
  rintro rfl
  rw [h] at hd
  cases hd

/-- The blank characters beyond ASCII. -/
def blankRanges : Ranges :=
  [(0x85, 0x85), (0xA0, 0xA0), (0x1680, 0x1680), (0x2000, 0x200A), (0x2028, 0x2029),
    (0x202F, 0x202F), (0x205F, 0x205F), (0x3000, 0x3000)]

/-- Blank characters: tab, line feed, vertical tab, form feed, carriage return,
space, and `blankRanges`. -/
def isBlank (c : Char) : Bool :=
  if c.toNat < 0x80 then
    decide (c.toNat = 0x20) || (decide (0x09 ≤ c.toNat) && decide (c.toNat ≤ 0x0D))
  else blankRanges.contains c

theorem isBlank_of_isWhitespace {c : Char} (h : c.isWhitespace = true) : isBlank c = true := by
  simp only [Char.isWhitespace, Bool.or_eq_true, decide_eq_true_eq] at h
  rcases h with ((rfl | rfl) | rfl) | rfl <;> rfl

theorem isBlank_newline : isBlank '\n' = true := rfl

end Parsing.Text
