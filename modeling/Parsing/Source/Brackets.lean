/-
# Unicode's brackets

The opening and closing brackets of Unicode's table of paired brackets, as it
stands in version 9.0. Quotation marks that come in pairs are not in it, and it
keeps clear of all other classes of characters that grammar text is read by.

Key definitions: `Brackets.unicode`.
-/
import Parsing.Source.Lexeme

namespace Parsing.Source

open Text

namespace Brackets

/-- The brackets beyond ASCII. -/
def bracketRanges : Ranges :=
  [(0xF3A, 0xF3D), (0x169B, 0x169C), (0x2045, 0x2046), (0x207D, 0x207E), (0x208D, 0x208E),
    (0x2308, 0x230B), (0x2329, 0x232A), (0x2768, 0x2775), (0x27C5, 0x27C6), (0x27E6, 0x27EF),
    (0x2983, 0x2998), (0x29D8, 0x29DB), (0x29FC, 0x29FD), (0x2E22, 0x2E29), (0x3008, 0x3011),
    (0x3014, 0x301B), (0xFE59, 0xFE5E), (0xFF08, 0xFF09), (0xFF3B, 0xFF3B), (0xFF3D, 0xFF3D),
    (0xFF5B, 0xFF5B), (0xFF5D, 0xFF5D), (0xFF5F, 0xFF60), (0xFF62, 0xFF63)]

/-- Opening and closing brackets: in ASCII the round, square and curly ones. -/
def isPaired (c : Char) : Bool :=
  if c.toNat < 0x80 then
    c == '(' || c == ')' || c == '[' || c == ']' || c.toNat == 0x7B || c.toNat == 0x7D
  else bracketRanges.contains c

variable {c : Char}

theorem isAlphanumeric_of_isPaired (h : isPaired c = true) : isAlphanumeric c = false :=
  eq_false_of_apart isPaired isAlphanumeric (fun _ hc => if_neg hc) (fun _ hc => if_neg hc)
    (by decide) (by decide +kernel) h

theorem isBlank_of_isPaired (h : isPaired c = true) : isBlank c = false :=
  eq_false_of_apart isPaired isBlank (fun _ hc => if_neg hc) (fun _ hc => if_neg hc) (by decide)
    (by decide) h

theorem isWordChar_of_isPaired (h : isPaired c = true) : isWordChar c = false := by
  have hne : c ≠ '_' := ne_of_class h (by decide)
  simp [isWordChar, isAlphanumeric_of_isPaired h, hne]

theorem isQuote_of_isPaired (h : isPaired c = true) : isQuote c = false := by
  have hne : c ≠ '\x27' := ne_of_class h (by decide)
  have hne' : c ≠ '\x22' := ne_of_class h (by decide)
  simp [isQuote, hne, hne']

theorem isPaired_mark : ∀ d ∈ ['-', '>', '|', ';'], isPaired d = false := by
  have h : ['-', '>', '|', ';'].any isPaired = false := rfl
  exact fun d hd => eq_false_of_ne_true (List.any_eq_false.mp h d hd)

/-- Unicode's paired brackets. -/
instance unicode : Brackets where
  isBracket := isPaired
  isWordChar_of_isBracket := isWordChar_of_isPaired
  isBlank_of_isBracket := isBlank_of_isPaired
  isQuote_of_isBracket := isQuote_of_isPaired
  isBracket_sign := rfl
  isBracket_mark := isPaired_mark

end Brackets

end Parsing.Source
