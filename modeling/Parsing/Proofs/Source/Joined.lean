/-
# Texts joined at a line feed

A line feed closes the line that a text before it leaves open, as the end of that text does, and
the text falls into the same lexemes with the line feed behind it. Only blanks at its end make one
lexeme with the line feed and the blanks behind that; this lexeme closes the line or, when no line
is open, is nothing (`reads_blanks_iff`). So two texts with a line feed between them are read as the
one and then the other (`reads_newline_iff`). A quotation that the first text leaves unclosed is
unclosed before the line feed too.

A comment behind a text adds nothing (`Reads.comment`), if the text leaves no quotation unclosed:
otherwise the comment may close it, and then a text that is not read alone is read with the comment.

Key definitions: `Lexeme.goesOnWith`.
Key theorems: `Lexeme.Ends.append`, `reads_blanks_iff`, `reads_newline_iff`, `Reads.comment`,
`rules_joined`.
-/
import Mathlib
import Parsing.Source.Load
import Parsing.Proofs.Source.Parts

namespace Parsing

namespace Source

open Text

section

variable [Brackets] {l : Lexeme} {cs ds run after more : List Char} {fresh : Bool}
  {ts : List Token} {rs : List Rule}

/-! ### Lexemes with more text behind them -/

/-- Whether the lexeme, if the text ended with it, would go on with the character. -/
def Lexeme.goesOnWith : Lexeme → Char → Bool
  | word _ => isWordChar
  | operator _ => isOperative
  | bracket _ => fun _ => false
  | blank _ => isBlank
  | quoted _ _ => fun _ => false
  | unclosed _ _ => fun _ => true
  | comment _ => (· != '\n')

/-- A lexeme ends where it did, unless the text behind it goes on with it. -/
theorem Lexeme.Ends.append (h : l.Ends after)
    (hmore : after = [] → ∀ c ∈ more.head?, l.goesOnWith c = false) : l.Ends (after ++ more) := by
  cases h with
  | word h => exact .word (h.append hmore)
  | operator h => exact .operator (h.append hmore)
  | bracket h => exact .bracket h _
  | blank h => exact .blank (h.append hmore)
  | quoted hq h => exact .quoted hq h _
  | brokenOff hq h => exact .brokenOff hq h _
  | unfinished hq h =>
    cases more with
    | nil => exact .unfinished hq h
    | cons c more => cases hmore rfl c rfl
  | comment h hafter =>
    refine .comment h ?_
    cases after with
    | nil => exact fun c hc => by simpa [goesOnWith] using hmore rfl c hc
    | cons c after => exact hafter

/-! ### Blanks and line feeds -/

/-- Blanks are nothing where no line is open. -/
theorem reads_dropWhile_iff : Reads true (ds.dropWhile isBlank) ts ↔ Reads true ds ts := by
  cases ds with
  | nil => rfl
  | cons d ds =>
    by_cases hd : isBlank d = true
    · have hends : (Lexeme.blank (d :: ds.takeWhile isBlank)).Ends (ds.dropWhile isBlank) :=
        .blank (isRun_takeWhile hd)
      have hskip : Reads true _ ts ↔ _ := reads_skip_iff hends (by simp) (by simp [Lexeme.token?])
      rw [Lexeme.chars, List.cons_append, List.takeWhile_append_dropWhile] at hskip
      rw [List.dropWhile_cons_of_pos hd, hskip]
    · rw [List.dropWhile_cons_of_neg hd]

/-- Blanks with a line feed among them are read as the end of an open line. -/
theorem reads_blank_iff (h : IsRun isBlank run after) (hrun : '\n' ∈ run) :
    Reads fresh (run ++ after) ts ↔ ∃ ts', ts = closing fresh ++ ts' ∧ Reads true after ts' := by
  have hends : (Lexeme.blank run).Ends after := .blank h
  have hread : Reads fresh _ ts ↔ _ := reads_append_iff hends
  cases fresh <;>
    simpa [Lexeme.chars, Lexeme.token?, Lexeme.leavesFresh, hrun, closing] using hread

/-- Blanks at the end of a text close an open line, as the end does. -/
theorem reads_blanks_iff (h : ∀ c ∈ run, isBlank c = true) :
    Reads fresh run ts ↔ ts = closing fresh := by
  by_cases hne : run = []
  · rw [hne]
    exact reads_nil_iff
  have hall : IsRun isBlank run [] := ⟨hne, h, nofun⟩
  by_cases hrun : '\n' ∈ run
  · have hread : Reads fresh _ ts ↔ _ := reads_blank_iff hall hrun
    rw [List.append_nil] at hread
    simp [hread, reads_nil_iff, closing]
  · have hends : (Lexeme.blank run).Ends [] := .blank hall
    have hread : Reads fresh _ ts ↔ _ :=
      reads_skip_iff hends (by simp) (by simp [Lexeme.token?, hrun])
    rw [Lexeme.chars, List.append_nil] at hread
    rw [hread, reads_nil_iff]

/-- Blanks before a line feed close an open line together with it. -/
theorem reads_blanks_newline_iff (h : ∀ c ∈ run, isBlank c = true) :
    Reads fresh (run ++ '\n' :: ds) ts ↔
      ∃ ts₁ ts₂, Reads fresh run ts₁ ∧ Reads true ds ts₂ ∧ ts = ts₁ ++ ts₂ := by
  have hall : IsRun isBlank (run ++ '\n' :: ds.takeWhile isBlank) (ds.dropWhile isBlank) := by
    refine ⟨by simp, ?_, head?_dropWhile_eq_false isBlank ds⟩
    exact List.forall_mem_append.mpr ⟨h, (isRun_takeWhile isBlank_newline).all⟩
  have hread : Reads fresh _ ts ↔ _ := reads_blank_iff hall (by simp)
  rw [List.append_assoc, List.cons_append, List.takeWhile_append_dropWhile] at hread
  rw [hread]
  constructor
  · rintro ⟨ts₂, rfl, hds⟩
    exact ⟨_, ts₂, (reads_blanks_iff h).mpr rfl, reads_dropWhile_iff.mp hds, rfl⟩
  · rintro ⟨_, ts₂, hrun, hds, rfl⟩
    obtain rfl := (reads_blanks_iff h).mp hrun
    exact ⟨ts₂, rfl, reads_dropWhile_iff.mpr hds⟩

/-! ### Two texts with a line feed between them -/

/-- An unclosed quotation stays unclosed before a line feed. -/
theorem not_reads_unclosed {delim : Char} {rest : List Char}
    (h : (Lexeme.unclosed delim rest).Ends after) :
    ¬ Reads fresh ((Lexeme.unclosed delim rest).chars ++ (after ++ '\n' :: ds)) ts := by
  intro hread
  cases h with
  | brokenOff hq h =>
    exact ((reads_append_iff (.brokenOff hq h _)).mp hread).1 ⟨delim, _, rfl⟩
  | unfinished hq h =>
    have hchars : (Lexeme.unclosed delim rest).chars ++ ([] ++ '\n' :: ds) =
        (Lexeme.unclosed delim (rest ++ ['\n'])).chars ++ ds := by simp [Lexeme.chars]
    rw [hchars] at hread
    exact ((reads_append_iff (.brokenOff hq h ds)).mp hread).1 ⟨delim, _, rfl⟩

/-- **Two texts with a line feed between them are read one after the other.** -/
theorem reads_newline_iff : Reads fresh (cs ++ '\n' :: ds) ts ↔
    ∃ ts₁ ts₂, Reads fresh cs ts₁ ∧ Reads true ds ts₂ ∧ ts = ts₁ ++ ts₂ := by
  have hdiv := divides_lexemes cs
  generalize lexemes cs = ls at hdiv
  induction hdiv generalizing fresh ts with
  | nil => exact reads_blanks_newline_iff (List.forall_mem_nil _)
  | @cons l ls after h _ ih =>
    by_cases hl : ∃ delim rest, l = .unclosed delim rest
    · refine iff_of_false ?_ fun ⟨_, _, hread, _⟩ => ((reads_append_iff h).mp hread).1 hl
      obtain ⟨delim, rest, rfl⟩ := hl
      rw [List.append_assoc]
      exact not_reads_unclosed h
    by_cases hblank : after = [] ∧ ∃ run, l = .blank run
    · -- the blanks at the end of the text and the line feed are one lexeme
      obtain ⟨rfl, run, rfl⟩ := hblank
      cases h with
      | blank h =>
        rw [List.append_nil]
        exact reads_blanks_newline_iff h.all
    · have hends : l.Ends (after ++ '\n' :: ds) := by
        refine h.append fun hafter c hc => ?_
        obtain rfl : '\n' = c := Option.some.inj hc
        cases l with
        | word | operator | bracket | quoted | comment => rfl
        | blank run => exact absurd ⟨hafter, run, rfl⟩ hblank
        | unclosed delim rest => exact absurd ⟨delim, rest, rfl⟩ hl
      rw [List.append_assoc, reads_append_iff hends]
      constructor
      · rintro ⟨-, _, rfl, hread⟩
        obtain ⟨ts₁, ts₂, h₁, h₂, rfl⟩ := ih.mp hread
        exact ⟨_, ts₂, (reads_append_iff h).mpr ⟨hl, ts₁, rfl, h₁⟩, h₂, (List.append_assoc _ _ _).symm⟩
      · rintro ⟨_, ts₂, hread, h₂, rfl⟩
        obtain ⟨-, ts₁, rfl, h₁⟩ := (reads_append_iff h).mp hread
        exact ⟨hl, ts₁ ++ ts₂, List.append_assoc _ _ _, ih.mpr ⟨ts₁, ts₂, h₁, h₂, rfl⟩⟩

/-! ### Comments -/

theorem reads_comment_iff {text : List Char} (h : ∀ c ∈ text, c ≠ '\n') :
    Reads fresh ('#' :: text) ts ↔ ts = closing fresh := by
  have hends : (Lexeme.comment text).Ends [] := .comment h nofun
  have hskip : Reads fresh _ ts ↔ _ := reads_skip_iff hends (by simp) rfl
  rw [Lexeme.chars, List.append_nil] at hskip
  rw [hskip, reads_nil_iff]

/-- **A comment behind a text that is read adds nothing.** -/
theorem Reads.comment {text : List Char} (htext : ∀ c ∈ text, c ≠ '\n') (h : Reads fresh cs ts) :
    Reads fresh (cs ++ '#' :: text) ts := by
  have hdiv := divides_lexemes cs
  generalize lexemes cs = ls at hdiv
  induction hdiv generalizing fresh ts with
  | nil => exact (reads_comment_iff htext).mpr (reads_nil_iff.mp h)
  | @cons l ls after hl _ ih =>
    obtain ⟨hclosed, ts', rfl, hread⟩ := (reads_append_iff hl).mp h
    by_cases hcomment : after = [] ∧ ∃ text, l = .comment text
    · -- the comment at the end of the text goes on with the other one
      obtain ⟨rfl, front, rfl⟩ := hcomment
      cases hl with
      | comment hfront =>
        rw [List.append_nil] at h ⊢
        have hall : ∀ c ∈ front ++ '#' :: text, c ≠ '\n' :=
          List.forall_mem_append.mpr ⟨hfront, List.forall_mem_cons.mpr ⟨by decide, htext⟩⟩
        exact (reads_comment_iff hall).mpr ((reads_comment_iff hfront).mp h)
    · have hends : l.Ends (after ++ '#' :: text) := by
        refine hl.append fun hafter c hc => ?_
        obtain rfl : '#' = c := Option.some.inj hc
        cases l with
        | word | bracket | quoted | blank => rfl
        | operator => simp [Lexeme.goesOnWith, isOperative]
        | comment text => exact absurd ⟨hafter, text, rfl⟩ hcomment
        | unclosed delim rest => exact absurd ⟨delim, rest, rfl⟩ hclosed
      rw [List.append_assoc, reads_append_iff hends]
      exact ⟨hclosed, ts', rfl, ih hread⟩

/-! ### Rules of joined texts -/

/-- What is read of a whole text leads to the start of a line. -/
theorem Reads.eq_lineStart {place : Place} (h : Reads true cs ts)
    (hpass : Place.lineStart.pass? ts = some (place, rs)) : place = .lineStart := by
  have hreach : Reaches (piecesFrom 0 true (lexemes cs)) place rs := ⟨ts, h 0, hpass⟩
  exact hreach.eq_lineStart (not_leavesOpen_piecesFrom leavesOpen_nil)

/-- A text has the rules that its tokens complete on the way from the start of a line to the start
of a line. -/
theorem rules_eq_ok_iff {text : String} : rules text = .ok rs ↔
    ∃ ts, Reads true text.toList ts ∧ Place.lineStart.pass? ts = some (.lineStart, rs) := by
  have hrules : rules text = .ok rs ↔ readLines (pieces text) = .ok rs := by
    rw [rules]
    cases readLines (pieces text) <;> simp
  rw [hrules, readLines_eq_ok_iff, ← reaches_lineStart_iff]
  exact exists_congr fun ts => and_congr_left' (reads_iff 0).symm

theorem rules_newline_iff {t₁ t₂ : String} : rules (t₁ ++ "\n" ++ t₂) = .ok rs ↔
    ∃ rs₁ rs₂, rules t₁ = .ok rs₁ ∧ rules t₂ = .ok rs₂ ∧ rs = rs₁ ++ rs₂ := by
  have hchars : (t₁ ++ "\n" ++ t₂).toList = t₁.toList ++ '\n' :: t₂.toList := by simp
  simp only [rules_eq_ok_iff, hchars, reads_newline_iff]
  constructor
  · rintro ⟨_, ⟨ts₁, ts₂, h₁, h₂, rfl⟩, hpass⟩
    obtain ⟨place, rs₁, rs₂, hpass₁, hpass₂, rfl⟩ := Place.pass?_append_eq_some_iff.mp hpass
    obtain rfl := h₁.eq_lineStart hpass₁
    exact ⟨rs₁, rs₂, ⟨ts₁, h₁, hpass₁⟩, ⟨ts₂, h₂, hpass₂⟩, rfl⟩
  · rintro ⟨rs₁, rs₂, ⟨ts₁, h₁, hpass₁⟩, ⟨ts₂, h₂, hpass₂⟩, rfl⟩
    exact ⟨_, ⟨ts₁, ts₂, h₁, h₂, rfl⟩,
      Place.pass?_append_eq_some_iff.mpr ⟨_, rs₁, rs₂, hpass₁, hpass₂, rfl⟩⟩

theorem rules_comment {text c : String} (hc : '\n' ∉ c.toList) (h : rules text = .ok rs) :
    rules (text ++ "#" ++ c) = .ok rs := by
  have hchars : (text ++ "#" ++ c).toList = text.toList ++ '#' :: c.toList := by simp
  obtain ⟨ts, hread, hpass⟩ := rules_eq_ok_iff.mp h
  refine rules_eq_ok_iff.mpr ⟨ts, ?_, hpass⟩
  rw [hchars]
  exact hread.comment fun d hd => ne_of_mem_of_not_mem hd hc

/-- **Loading goes line by line.** Two texts with a line feed between them have rules if and only if
both have, the rules of the first before those of the second; and then a comment at the end of the
first text changes nothing. -/
theorem rules_joined (t₁ t₂ : String) :
    (∀ rs, rules (t₁ ++ "\n" ++ t₂) = .ok rs ↔
      ∃ rs₁ rs₂, rules t₁ = .ok rs₁ ∧ rules t₂ = .ok rs₂ ∧ rs = rs₁ ++ rs₂) ∧
    ∀ rs₁ rs₂, rules t₁ = .ok rs₁ → rules t₂ = .ok rs₂ → ∀ c : String, '\n' ∉ c.toList →
      rules (t₁ ++ "#" ++ c ++ "\n" ++ t₂) = .ok (rs₁ ++ rs₂) :=
  ⟨fun _ => rules_newline_iff, fun rs₁ rs₂ h₁ h₂ _ hc =>
    rules_newline_iff.mpr ⟨rs₁, rs₂, rules_comment hc h₁, h₂, rfl⟩⟩

end

/-- The theorem at a text that ends with a blank in an open line, a comment with a quote in it, and
a text that begins with an empty line. -/
theorem rules_joined_open :
    let t₁ := "S -> a | "
    let t₂ := " \n\x22T U\x22 -> b; S -> c"
    let c := " S \x27 ->"
    rules t₁ = .ok [⟨"S", ["a"]⟩, ⟨"S", []⟩] ∧ rules t₂ = .ok [⟨"T U", ["b"]⟩, ⟨"S", ["c"]⟩] ∧
      '\n' ∉ c.toList ∧ rules (t₁ ++ "#" ++ c ++ "\n" ++ t₂) =
        .ok ([⟨"S", ["a"]⟩, ⟨"S", []⟩] ++ [⟨"T U", ["b"]⟩, ⟨"S", ["c"]⟩]) := by
  intro t₁ t₂ c
  have h₁ : rules t₁ = .ok [⟨"S", ["a"]⟩, ⟨"S", []⟩] := by cbv
  have h₂ : rules t₂ = .ok [⟨"T U", ["b"]⟩, ⟨"S", ["c"]⟩] := by cbv
  have hc : '\n' ∉ c.toList := by decide
  exact ⟨h₁, h₂, hc, (rules_joined t₁ t₂).2 _ _ h₁ h₂ c hc⟩

end Source

end Parsing
