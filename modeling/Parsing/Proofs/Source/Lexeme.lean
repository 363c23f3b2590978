/-
# Lexemes and their classes

No character is of two classes (`isWordChar_of_isBlank`, `isWordChar_of_isQuote`, and what is asked
of `Brackets`; the operative characters are what is left), so the first character of a text decides
what its first lexeme is.

Whether a lexeme ends where the text behind it begins can be told by its class and by the first
character behind it (`Lexeme.Ends`), and a text falls into lexemes in no other way: the first one
ends where the others begin (`Lexeme.ends_first`), and a lexeme that ends where a text begins is
the first one of the two together (`Lexeme.Ends.lexemes_append`).

A word, an operator or a bracket with a blank behind it, and a single blank with something else
behind it, are lexemes of their own whatever follows.

Key definitions: `IsRun`, `Lexeme.Ends`, `Lexeme.Solid`.
Key theorems: `Lexeme.ends_first`, `Lexeme.Ends.lexemes_append`, `Lexeme.Solid.ends`.
-/
import Mathlib.Data.List.TakeWhile
import Parsing.Proofs.Text
import Parsing.Source.Lexeme

namespace Parsing.Source

open Text

/-! ### Classes of characters -/

section

variable {c : Char}

theorem isAlphanumeric_of_isBlank (h : isBlank c = true) : isAlphanumeric c = false :=
  eq_false_of_apart isBlank isAlphanumeric (fun _ hc => if_neg hc) (fun _ hc => if_neg hc)
    (by decide) (by decide +kernel) h

theorem isQuote_of_class {p : Char → Bool} (h : p c = true) (hq : p '\x27' = false)
    (hqq : p '\x22' = false) : isQuote c = false := by
  simp [isQuote, ne_of_class h hq, ne_of_class h hqq]

theorem isWordChar_of_isBlank (h : isBlank c = true) : isWordChar c = false := by
  have hne : c ≠ '_' := ne_of_class h (by decide)
  simp [isWordChar, isAlphanumeric_of_isBlank h, hne]

theorem isWordChar_of_isQuote (h : isQuote c = true) : isWordChar c = false := by
  rw [isQuote, Bool.or_eq_true, beq_iff_eq, beq_iff_eq] at h
  rcases h with rfl | rfl <;> decide

theorem isOperative_iff [Brackets] : isOperative c = true ↔ isWordChar c = false ∧ isBlank c = false ∧
    isBracket c = false ∧ isQuote c = false ∧ c ≠ '#' := by
  simp [isOperative, and_assoc]

theorem isOperative_of_mark [Brackets] (h : c ∈ ['-', '>', '|', ';']) : isOperative c = true := by
  have hclasses : isWordChar c = false ∧ isBlank c = false ∧ isQuote c = false ∧ c ≠ '#' := by
    simp only [List.mem_cons, List.not_mem_nil, or_false] at h
    rcases h with rfl | rfl | rfl | rfl <;> decide
  obtain ⟨hword, hblank, hquote, hsign⟩ := hclasses
  exact isOperative_iff.mpr ⟨hword, hblank, isBracket_mark c h, hquote, hsign⟩

end

/-! ### First lexemes by the class of the first character -/

namespace Lexeme

variable [Brackets] {c : Char} {cs : List Char}

theorem first_word (h : isWordChar c = true) :
    first c cs = (word (c :: cs.takeWhile isWordChar), cs.dropWhile isWordChar) := by
  have hsign := ne_of_class (d := '#') h (by decide)
  have hquote := isQuote_of_class h (by decide) (by decide)
  simp [first, hsign, hquote, h]

theorem first_blank (h : isBlank c = true) :
    first c cs = (blank (c :: cs.takeWhile isBlank), cs.dropWhile isBlank) := by
  have hsign := ne_of_class (d := '#') h (by decide)
  have hquote := isQuote_of_class h (by decide) (by decide)
  simp [first, hsign, hquote, isWordChar_of_isBlank h, h]

theorem first_bracket (h : isBracket c = true) : first c cs = (bracket c, cs) := by
  have hsign : c ≠ '#' := ne_of_class h isBracket_sign
  simp [first, hsign, isQuote_of_isBracket h, isWordChar_of_isBracket h, isBlank_of_isBracket h, h]

theorem first_operative (h : isOperative c = true) :
    first c cs = (operator (c :: cs.takeWhile isOperative), cs.dropWhile isOperative) := by
  obtain ⟨hword, hblank, hbracket, hquote, hsign⟩ := isOperative_iff.mp h
  simp [first, hsign, hquote, hword, hblank, hbracket]

theorem first_sign : first '#' cs = (comment (cs.takeWhile (· != '\n')), cs.dropWhile (· != '\n')) :=
  rfl

theorem first_quote (h : isQuote c = true) : first c cs = quotation c cs := by
  have hsign := ne_of_class (d := '#') h (by decide)
  simp [first, hsign, h]

end Lexeme

/-! ### Where lexemes end -/

/-- Whether the characters are a run of the class `p` that what is behind them does not go on
with. -/
structure IsRun (p : Char → Bool) (run after : List Char) : Prop where
  ne_nil : run ≠ []
  all : ∀ c ∈ run, p c = true
  stops : ∀ c ∈ after.head?, p c = false

section

variable {p : Char → Bool} {c : Char} {cs run after : List Char}

theorem isRun_takeWhile (h : p c = true) :
    IsRun p (c :: cs.takeWhile p) (cs.dropWhile p) where
  ne_nil := List.cons_ne_nil _ _
  all := List.forall_mem_cons.mpr ⟨h, fun _ hd => List.mem_takeWhile_imp hd⟩
  stops := head?_dropWhile_eq_false p cs

theorem IsRun.append {more : List Char} (h : IsRun p run after)
    (hmore : after = [] → ∀ c ∈ more.head?, p c = false) : IsRun p run (after ++ more) := by
  refine ⟨h.ne_nil, h.all, ?_⟩
  cases after with
  | nil => exact hmore rfl
  | cons c after => exact h.stops

/-- A run is its first character and what is taken behind it. -/
theorem IsRun.exists_cons (h : IsRun p run after) :
    ∃ c cs, run = c :: cs ∧ p c = true ∧ (cs ++ after).takeWhile p = cs ∧
      (cs ++ after).dropWhile p = after := by
  obtain ⟨c, cs, rfl⟩ := List.exists_cons_of_ne_nil h.ne_nil
  obtain ⟨hc, hcs⟩ := List.forall_mem_cons.mp h.all
  exact ⟨c, cs, rfl, hc, takeWhile_dropWhile_append hcs h.stops⟩

end

namespace Lexeme

variable [Brackets]

/-- Whether the lexeme is one of its class and ends where the text `after` begins. -/
inductive Ends : Lexeme → (after : List Char) → Prop
  | word {run after : List Char} (h : IsRun isWordChar run after) : Ends (word run) after
  | operator {run after : List Char} (h : IsRun isOperative run after) : Ends (operator run) after
  | bracket {c : Char} (h : isBracket c = true) (after : List Char) : Ends (bracket c) after
  | blank {run after : List Char} (h : IsRun isBlank run after) : Ends (blank run) after
  | quoted {delim : Char} {content : List Char} (hq : isQuote delim = true)
      (h : ∀ c ∈ content, c ≠ delim ∧ c ≠ '\n') (after : List Char) :
      Ends (quoted delim content) after
  | brokenOff {delim : Char} {rest : List Char} (hq : isQuote delim = true)
      (h : ∀ c ∈ rest, c ≠ delim ∧ c ≠ '\n') (after : List Char) :
      Ends (unclosed delim (rest ++ ['\n'])) after
  | unfinished {delim : Char} {rest : List Char} (hq : isQuote delim = true)
      (h : ∀ c ∈ rest, c ≠ delim ∧ c ≠ '\n') : Ends (unclosed delim rest) []
  | comment {text after : List Char} (h : ∀ c ∈ text, c ≠ '\n')
      (hafter : ∀ c ∈ after.head?, c = '\n') : Ends (comment text) after

variable {l : Lexeme} {c : Char} {cs after : List Char}

/-- A quotation ends at its closing quote, behind the line feed that breaks it off, or with the
text. -/
theorem ends_quotation (hq : isQuote c = true) (cs : List Char) :
    (quotation c cs).1.Ends (quotation c cs).2 := by
  have hinside : ∀ d ∈ cs.takeWhile (fun d => d != c && d != '\n'), d ≠ c ∧ d ≠ '\n' := by
    intro d hd
    simpa using List.mem_takeWhile_imp hd
  simp only [quotation]
  split
  · exact .unfinished hq hinside
  · next d rest hdrop =>
    have hstop : (d != c && d != '\n') = false :=
      head?_dropWhile_eq_false _ cs d (by rw [hdrop]; rfl)
    split
    · exact .quoted hq hinside rest
    · next hd =>
      obtain rfl : d = '\n' := by simpa [hd] using hstop
      exact .brokenOff hq hinside rest

/-- **The first lexeme ends where the text behind it begins.** -/
theorem ends_first (c : Char) (cs : List Char) : (first c cs).1.Ends (first c cs).2 := by
  by_cases hsign : c = '#'
  · subst hsign
    rw [first_sign]
    refine .comment (fun d hd => by simpa using List.mem_takeWhile_imp hd) fun d hd => ?_
    simpa using head?_dropWhile_eq_false (· != '\n') cs d hd
  by_cases hquote : isQuote c = true
  · rw [first_quote hquote]
    exact ends_quotation hquote cs
  by_cases hword : isWordChar c = true
  · rw [first_word hword]
    exact .word (isRun_takeWhile hword)
  by_cases hblank : isBlank c = true
  · rw [first_blank hblank]
    exact .blank (isRun_takeWhile hblank)
  by_cases hbracket : isBracket c = true
  · rw [first_bracket hbracket]
    exact .bracket hbracket cs
  · have hop : isOperative c = true :=
      isOperative_iff.mpr ⟨eq_false_of_ne_true hword, eq_false_of_ne_true hblank,
        eq_false_of_ne_true hbracket, eq_false_of_ne_true hquote, hsign⟩
    rw [first_operative hop]
    exact .operator (isRun_takeWhile hop)

theorem Ends.chars_ne_nil (h : l.Ends after) : l.chars ≠ [] := by
  cases h with
  | word h | operator h | blank h => exact h.ne_nil
  | bracket | quoted | brokenOff | unfinished | comment => simp [chars]

end Lexeme

theorem lexemes_cons [Brackets] (c : Char) (cs : List Char) :
    lexemes (c :: cs) = (Lexeme.first c cs).1 :: lexemes (Lexeme.first c cs).2 := by
  rw [lexemes]

/-- What is inside a quotation is taken up to a closing quote, a line feed or the end. -/
theorem inside_append {delim : Char} {rest after : List Char}
    (h : ∀ c ∈ rest, c ≠ delim ∧ c ≠ '\n') (hafter : ∀ c ∈ after.head?, c = delim ∨ c = '\n') :
    (rest ++ after).takeWhile (fun c => c != delim && c != '\n') = rest ∧
      (rest ++ after).dropWhile (fun c => c != delim && c != '\n') = after := by
  refine takeWhile_dropWhile_append (fun c hc => by simpa using h c hc) fun c hc => ?_
  rcases hafter c hc with rfl | rfl <;> simp

/-- **A lexeme that ends where a text begins is the first lexeme of both together.** -/
theorem Lexeme.Ends.lexemes_append [Brackets] {l : Lexeme} {after : List Char} (h : l.Ends after) :
    lexemes (l.chars ++ after) = l :: lexemes after := by
  cases h with
  | word h =>
    obtain ⟨c, cs, rfl, hc, htake, hdrop⟩ := h.exists_cons
    rw [chars, List.cons_append, lexemes_cons, first_word hc, htake, hdrop]
  | operator h =>
    obtain ⟨c, cs, rfl, hc, htake, hdrop⟩ := h.exists_cons
    rw [chars, List.cons_append, lexemes_cons, first_operative hc, htake, hdrop]
  | blank h =>
    obtain ⟨c, cs, rfl, hc, htake, hdrop⟩ := h.exists_cons
    rw [chars, List.cons_append, lexemes_cons, first_blank hc, htake, hdrop]
  | bracket h => rw [chars, List.singleton_append, lexemes_cons, first_bracket h]
  | @quoted delim content hq h =>
    have hstop : ∀ c ∈ (delim :: after).head?, c = delim ∨ c = '\n' := by simp
    obtain ⟨htake, hdrop⟩ := inside_append h hstop
    have hchars : (Lexeme.quoted delim content).chars ++ after =
        delim :: (content ++ delim :: after) := by simp [chars]
    rw [hchars, lexemes_cons, first_quote hq, quotation, htake, hdrop]
    simp
  | @brokenOff delim rest hq h =>
    have hne : '\n' ≠ delim := (ne_of_class (d := '\n') hq (by decide)).symm
    have hstop : ∀ c ∈ ('\n' :: after).head?, c = delim ∨ c = '\n' := by simp
    obtain ⟨htake, hdrop⟩ := inside_append h hstop
    have hchars : (unclosed delim (rest ++ ['\n'])).chars ++ after =
        delim :: (rest ++ '\n' :: after) := by simp [chars]
    rw [hchars, lexemes_cons, first_quote hq, quotation, htake, hdrop]
    simp [hne]
  | @unfinished delim rest hq h =>
    have hstop : ∀ c ∈ ([] : List Char).head?, c = delim ∨ c = '\n' := by simp
    obtain ⟨htake, hdrop⟩ := inside_append h hstop
    have hchars : (unclosed delim rest).chars ++ [] = delim :: (rest ++ []) := by simp [chars]
    rw [hchars, lexemes_cons, first_quote hq, quotation, htake, hdrop]
  | comment h hafter =>
    obtain ⟨htake, hdrop⟩ := takeWhile_dropWhile_append (p := (· != '\n'))
      (fun c hc => by simpa using h c hc) fun c hc => by simp [hafter c hc]
    rw [chars, List.cons_append, lexemes_cons, first_sign, htake, hdrop]

namespace Lexeme

/-- Whether the lexeme is a word, an operator or a bracket. -/
inductive Solid [Brackets] : Lexeme → Prop
  | word {text : List Char} (hne : text ≠ []) (h : ∀ c ∈ text, isWordChar c = true) :
      Solid (word text)
  | operator {text : List Char} (hne : text ≠ []) (h : ∀ c ∈ text, isOperative c = true) :
      Solid (operator text)
  | bracket {c : Char} (h : isBracket c = true) : Solid (bracket c)

end Lexeme

section

variable [Brackets] {rest : List Char}

theorem Lexeme.Solid.ends {l : Lexeme} (h : l.Solid)
    (hrest : ∀ c ∈ rest.head?, isBlank c = true) : l.Ends rest := by
  cases h with
  | word hne h => exact .word ⟨hne, h, fun c hc => isWordChar_of_isBlank (hrest c hc)⟩
  | operator hne h =>
    exact .operator ⟨hne, h, fun c hc => by simp [isOperative, hrest c hc]⟩
  | bracket h => exact .bracket h rest

theorem Lexeme.Solid.isBlank_head? {l : Lexeme} (h : l.Solid) :
    ∀ c ∈ (l.chars ++ rest).head?, isBlank c = false := by
  cases h with
  | @word text hne h =>
    obtain ⟨c, text, rfl⟩ := List.exists_cons_of_ne_nil hne
    intro d hd
    obtain rfl : c = d := Option.some.inj hd
    have hword := h c List.mem_cons_self
    by_contra hblank
    rw [isWordChar_of_isBlank (Bool.not_eq_false _ ▸ hblank)] at hword
    cases hword
  | @operator text hne h =>
    obtain ⟨c, text, rfl⟩ := List.exists_cons_of_ne_nil hne
    intro d hd
    obtain rfl : c = d := Option.some.inj hd
    exact (isOperative_iff.mp (h c List.mem_cons_self)).2.1
  | @bracket c h =>
    intro d hd
    obtain rfl : c = d := Option.some.inj hd
    exact isBlank_of_isBracket h

theorem Lexeme.ends_blank {b : Char} (hb : isBlank b = true)
    (hrest : ∀ c ∈ rest.head?, isBlank c = false) : (Lexeme.blank [b]).Ends rest :=
  .blank ⟨by simp, by simpa using hb, hrest⟩

end

end Parsing.Source
