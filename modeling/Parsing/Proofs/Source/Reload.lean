/-
# Printing and reloading grammars

The text of a grammar is one line for each group of rules, its tokens with spaces between them. So
reading gives the rules back in their order, and the rules the grammar, when every symbol is read
as it is written (`Plain`).

The converse holds where no symbol has a quote in it: then the text has none, and without quotes
no lexeme stands for a symbol that is not plain. So the symbols of a text that is read at all are
plain, and with them those of the grammar that it gives.

Key definitions: `spaced`, `RuleGroup.line`, `Grammar.lines`.
Key theorems: `RuleGroup.toList_text`, `Reads.line`, `Grammar.ofText_text`,
`plain_of_mem_lexemes`, `Grammar.plain_of_ofText`, `Grammar.ofText_text_iff`.
-/
import Parsing.Source.Load
import Parsing.Proofs.Rebuild
import Parsing.Proofs.Source.Reads
import Parsing.Proofs.Text

namespace Parsing

open Source Text

/-! ### Lines as they are printed -/

namespace Source

/-- Tokens with a space before each. -/
def spaced (ts : List Token) : List Char := ts.flatMap fun t => ' ' :: t.chars

namespace Line

/-- The tokens of a line behind its left-hand side and before its end. -/
def inner (first : List Symbol) (others : List (List Symbol)) : List Token :=
  .arrow :: (first.map .symbol ++ others.flatMap fun body => .bar :: body.map .symbol)

variable {first : List Symbol} {others : List (List Symbol)} {s : Symbol}

theorem tokens_alternatives (lhs : Symbol) (first : List Symbol) (others : List (List Symbol)) :
    (alternatives lhs first others).tokens = .symbol lhs :: (inner first others ++ [.lineEnd]) :=
  rfl

theorem symbol_mem_inner_iff :
    .symbol s ∈ inner first others ↔ ∃ body ∈ first :: others, s ∈ body := by
  simp [inner]

/-- The symbols of a line are those of its rules. -/
theorem symbol_mem_tokens_iff {l : Line} :
    .symbol s ∈ l.tokens ↔ ∃ r ∈ l.rules, s ∈ r.lhs :: r.rhs := by
  cases l with
  | blank => simp [tokens, rules]
  | alternatives lhs first others =>
    have hmem : Token.symbol s ∈ (alternatives lhs first others).tokens ↔
        s = lhs ∨ ∃ body ∈ first :: others, s ∈ body := by
      simp [tokens_alternatives, symbol_mem_inner_iff]
    rw [hmem]
    constructor
    · rintro (rfl | ⟨body, hbody, hs⟩)
      · exact ⟨_, List.mem_map_of_mem List.mem_cons_self, List.mem_cons_self⟩
      · exact ⟨_, List.mem_map_of_mem hbody, List.mem_cons_of_mem _ hs⟩
    · rintro ⟨r, hr, hs⟩
      obtain ⟨body, hbody, rfl⟩ := List.mem_map.mp hr
      exact (List.mem_cons.mp hs).imp id fun hs => ⟨body, hbody, hs⟩

end Line

end Source

namespace RuleGroup

/-- The line of a group. -/
def line (grp : RuleGroup) : Line :=
  match grp.bodies with
  | [] => .blank
  | first :: others => .alternatives grp.lhs first others

variable {grp : RuleGroup} {first : List Symbol} {others : List (List Symbol)}

theorem line_of_bodies (h : grp.bodies = first :: others) :
    grp.line = .alternatives grp.lhs first others := by
  simp [line, h]

theorem rules_line (grp : RuleGroup) : grp.line.rules = grp.rules := by
  obtain ⟨first, others, h⟩ := List.exists_cons_of_ne_nil grp.inhabited
  simp [line_of_bodies h, Line.rules, rules, h]

theorem toList_body (body : List Symbol) :
    (if body = [] then "" else " " ++ Symbol.row body).toList = spaced (body.map .symbol) := by
  cases body with
  | nil => rfl
  | cons s body =>
    rw [if_neg (by simp), String.toList_append, Symbol.row, String.toList_intercalate,
      List.map_cons, intercalate_cons_eq, List.flatMap_map]
    simp [spaced, Token.chars, List.flatMap_map]

/-- The text of a group is its left-hand side and the other tokens of its line with spaces. -/
theorem toList_text (h : grp.bodies = first :: others) :
    grp.text.toList = grp.lhs.toList ++ spaced (Line.inner first others) := by
  rw [text, h, String.toList_append, String.toList_append, String.toList_intercalate,
    List.map_map, List.map_cons, intercalate_cons_eq, List.flatMap_map]
  simp only [Function.comp_apply, toList_body]
  simp [Line.inner, spaced, Token.chars, List.flatMap_assoc]

end RuleGroup

namespace Source

/-! ### Reading lines -/

theorem isBlank_head?_spaced {cs : List Char} (us : List Token)
    (hcs : ∀ c ∈ cs.head?, isBlank c = true) :
    ∀ c ∈ (spaced us ++ cs).head?, isBlank c = true := by
  cases us with
  | nil => exact hcs
  | cons t us =>
    rintro c ⟨rfl⟩
    decide

variable [Brackets]

theorem Token.Bare.isBlank_head? {t : Token} (ht : t.Bare) (cs : List Char) :
    ∀ c ∈ (t.chars ++ cs).head?, isBlank c = false := by
  obtain ⟨l, hsolid, hchars, -⟩ := ht.exists_lexeme
  rw [← hchars]
  exact hsolid.isBlank_head?

namespace Reads

variable {fresh : Bool} {cs : List Char} {ts : List Token}

/-- Tokens with spaces before them are read one after the other. -/
theorem tokens {us : List Token} (hbare : ∀ t ∈ us, t.Bare ∧ t ≠ .lineEnd)
    (hcs : ∀ c ∈ cs.head?, isBlank c = true) (h : Reads false cs ts) :
    Reads false (spaced us ++ cs) (us ++ ts) := by
  induction us with
  | nil => exact h
  | cons t us ih =>
    obtain ⟨⟨ht, hend⟩, hus⟩ := List.forall_mem_cons.mp hbare
    have hread : Reads (t = .lineEnd) (spaced us ++ cs) (us ++ ts) := by
      simpa [hend] using ih hus
    have htoken : Reads false (t.chars ++ (spaced us ++ cs)) (t :: (us ++ ts)) :=
      hread.token ht (isBlank_head?_spaced us hcs)
    simpa [spaced] using htoken.space (ht.isBlank_head? _)

/-- A line is read as its tokens when what closes it is read behind it. -/
theorem alternatives {lhs : Symbol} {first : List Symbol} {others : List (List Symbol)}
    (hplain : ∀ s, .symbol s ∈ (Line.alternatives lhs first others).tokens → Plain s)
    (hcs : ∀ c ∈ cs.head?, isBlank c = true) (h : Reads false cs (.lineEnd :: ts)) :
    Reads true (lhs.toList ++ (spaced (Line.inner first others) ++ cs))
      ((Line.alternatives lhs first others).tokens ++ ts) := by
  have hinner : ∀ t ∈ Line.inner first others, t.Bare ∧ t ≠ .lineEnd := by
    intro t ht
    cases t with
    | arrow | bar => exact ⟨trivial, nofun⟩
    | lineEnd => simp [Line.inner] at ht
    | symbol s => exact ⟨hplain s (by simp [Line.tokens_alternatives, ht]), nofun⟩
  have hhead : (Token.symbol lhs).Bare := hplain lhs List.mem_cons_self
  rw [Line.tokens_alternatives, List.cons_append, List.append_assoc]
  exact (tokens hinner hcs h).token hhead (isBlank_head?_spaced _ hcs)

theorem line {lhs : Symbol} {first : List Symbol} {others : List (List Symbol)}
    (hplain : ∀ s, .symbol s ∈ (Line.alternatives lhs first others).tokens → Plain s)
    (hcs : ∀ c ∈ cs.head?, isBlank c = false) (h : Reads true cs ts) :
    Reads true (lhs.toList ++ (spaced (Line.inner first others) ++ '\n' :: cs))
      ((Line.alternatives lhs first others).tokens ++ ts) := by
  refine alternatives hplain ?_ (h.newline hcs)
  rintro c ⟨rfl⟩
  decide

end Reads

end Source

/-! ### Reading what is printed -/

namespace Grammar

/-- The lines of a grammar. -/
def lines (g : Grammar) : List Line := g.groups.map RuleGroup.line

theorem rules_lines (g : Grammar) : g.lines.flatMap Line.rules = g.rules := by
  simp [lines, List.flatMap_map, RuleGroup.rules_line, rules]

end Grammar

namespace Source

/-- Groups of rules with plain symbols are read as their lines. -/
theorem reads_groups [Brackets] {grps : List RuleGroup}
    (hplain : ∀ grp ∈ grps, ∀ s, .symbol s ∈ grp.line.tokens → Plain s) :
    Reads true (String.join (grps.map fun grp => grp.text ++ "\n")).toList
        (grps.flatMap fun grp => grp.line.tokens) ∧
      ∀ c ∈ (String.join (grps.map fun grp => grp.text ++ "\n")).toList.head?,
        isBlank c = false := by
  induction grps with
  | nil => exact ⟨Reads.nil, by simp⟩
  | cons grp grps ih =>
    obtain ⟨hgrp, hgrps⟩ := List.forall_mem_cons.mp hplain
    obtain ⟨hread, hhead⟩ := ih hgrps
    obtain ⟨first, others, hb⟩ := List.exists_cons_of_ne_nil grp.inhabited
    rw [RuleGroup.line_of_bodies hb] at hgrp
    have htext : (String.join ((grp :: grps).map fun grp => grp.text ++ "\n")).toList =
        grp.lhs.toList ++ (spaced (Line.inner first others) ++ '\n' ::
          (String.join (grps.map fun grp => grp.text ++ "\n")).toList) := by
      simp [String.toList_join, RuleGroup.toList_text hb]
    have hlhs : (Token.symbol grp.lhs).Bare := hgrp grp.lhs List.mem_cons_self
    rw [htext, List.flatMap_cons, RuleGroup.line_of_bodies hb]
    exact ⟨hread.line hgrp hhead, hlhs.isBlank_head? _⟩

end Source

namespace Grammar

/-- **A grammar with plain symbols is read back from its text.** -/
theorem ofText_text [Brackets] {g : Grammar} (hstart : g.start = defaultStart)
    (hplain : ∀ r ∈ g.rules, ∀ s ∈ r.lhs :: r.rhs, Plain s) : ofText g.text = .ok g := by
  have hsymbols : ∀ grp ∈ g.groups, ∀ s, .symbol s ∈ grp.line.tokens → Plain s := by
    intro grp hgrp s hs
    obtain ⟨r, hr, hs⟩ := Line.symbol_mem_tokens_iff.mp hs
    rw [RuleGroup.rules_line] at hr
    exact hplain r (List.mem_flatMap_of_mem hgrp hr) s hs
  have hlined : Lined (pieces g.text) g.lines := by
    rw [Lined, lines, List.flatMap_map]
    exact (reads_groups hsymbols).1 0
  have hread : readLines (pieces g.text) = .ok g.rules :=
    readLines_eq_ok_iff.mpr ⟨g.lines, hlined, g.rules_lines.symm⟩
  rw [ofText, Source.rules, hread, ← hstart]
  exact congrArg Except.ok g.ofRules_rules

end Grammar

/-! ### Texts without quotes -/

namespace Source

variable {fresh : Bool} {s : Symbol} {cs : List Char} {l : Lexeme}

theorem ofList_ne {text : List Char} {spelling : String} (h : text ≠ spelling.toList) :
    String.ofList text ≠ spelling := fun e => h (by rw [← e, String.toList_ofList])

theorem Lexeme.Solid.plain [Brackets] (h : l.Solid) (hs : l.token? fresh = some (.symbol s)) : Plain s := by
  cases h with
  | @word text hne h =>
    cases hs
    refine .inl ?_
    rw [String.toList_ofList]
    exact ⟨hne, List.all_eq_true.mpr h⟩
  | @operator text hne h =>
    by_cases harrow : text = ['-', '>']
    · simp [Lexeme.token?, harrow] at hs
    by_cases hbar : text = ['|']
    · simp [Lexeme.token?, hbar] at hs
    by_cases hend : text = [';']
    · simp [Lexeme.token?, hend] at hs
    simp only [Lexeme.token?, harrow, hbar, hend, if_false, Option.some.injEq,
      Token.symbol.injEq] at hs
    subst hs
    refine .inr (.inr ?_)
    rw [String.toList_ofList]
    exact ⟨hne, List.all_eq_true.mpr h, ofList_ne harrow, ofList_ne hbar, ofList_ne hend⟩
  | @bracket c h =>
    cases hs
    refine .inr (.inl ?_)
    rw [String.toList_ofList]
    exact ⟨rfl, by simpa using h⟩

/-- Without a quote in front only what is solid stands for a symbol. -/
theorem Lexeme.solid_first [Brackets] {c : Char} (hquote : isQuote c = false)
    (hs : (first c cs).1.token? fresh = some (.symbol s)) : (first c cs).1.Solid := by
  have hchars := chars_first c cs
  have hends := ends_first c cs
  generalize (first c cs).1 = l, (first c cs).2 = after at hs hchars hends
  cases hends with
  | word h => exact .word h.ne_nil h.all
  | operator h => exact .operator h.ne_nil h.all
  | bracket h => exact .bracket h
  | blank => rw [token?] at hs; split at hs <;> cases hs
  | brokenOff | unfinished | comment => cases hs
  | @quoted delim content hq =>
    -- the opening quote is the first character
    obtain rfl : delim = c := (List.cons.inj hchars).1
    rw [hq] at hquote
    cases hquote

/-- **Without quotes every symbol that is read is plain.** -/
theorem plain_of_mem_lexemes [Brackets] (hquote : ∀ c ∈ cs, isQuote c = false) (hl : l ∈ lexemes cs)
    (hs : l.token? fresh = some (.symbol s)) : Plain s := by
  fun_induction lexemes cs with
  | case1 => cases hl
  | case2 c cs ih =>
    rcases List.mem_cons.mp hl with rfl | hl
    · exact (Lexeme.solid_first (hquote c List.mem_cons_self) hs).plain hs
    · refine ih (fun d hd => hquote d ?_) hl
      rw [← Lexeme.chars_first c cs]
      exact List.mem_append_right _ hd

/-- A token other than a line end is read from a lexeme. -/
theorem exists_lexeme_of_mem_pieces {pos : Nat} {ls : List Lexeme} {t : Token}
    (ht : some t ∈ (piecesFrom pos fresh ls).map Piece.token?) (hend : t ≠ .lineEnd) :
    ∃ l ∈ ls, ∃ fresh, l.token? fresh = some t := by
  fun_induction piecesFrom pos fresh ls with
  | case1 => simp at ht
  | case2 => simp [Piece.token?, hend] at ht
  | case3 pos fresh delim rest ls ih =>
    obtain ⟨l, hl, h⟩ := ih (by simpa [Piece.token?] using ht)
    exact ⟨l, List.mem_cons_of_mem _ hl, h⟩
  | case4 pos fresh l ls _ _ ih =>
    obtain ⟨l, hl, h⟩ := ih ht
    exact ⟨l, List.mem_cons_of_mem _ hl, h⟩
  | case5 pos fresh l ls _ t' ht' ih =>
    rcases List.mem_cons.mp ht with he | ht
    · cases he
      exact ⟨l, List.mem_cons_self, fresh, ht'⟩
    · obtain ⟨l, hl, h⟩ := ih ht
      exact ⟨l, List.mem_cons_of_mem _ hl, h⟩

end Source

namespace Grammar

/-- The text of a grammar is made of the characters of its symbols and of spaces, arrows, bars and
line feeds. -/
theorem mem_text {g : Grammar} {c : Char} (hc : c ∈ g.text.toList) :
    (∃ r ∈ g.rules, ∃ s ∈ r.lhs :: r.rhs, c ∈ s.toList) ∨ c ∈ [' ', '-', '>', '|', '\n'] := by
  rw [text, String.toList_join, List.flatMap_map] at hc
  obtain ⟨grp, hgrp, hc⟩ := List.mem_flatMap.mp hc
  obtain ⟨first, others, hb⟩ := List.exists_cons_of_ne_nil grp.inhabited
  rw [String.toList_append, RuleGroup.toList_text hb, List.append_assoc] at hc
  have hrules : ∀ body ∈ first :: others, (⟨grp.lhs, body⟩ : Rule) ∈ g.rules := by
    intro body hbody
    rw [← hb] at hbody
    exact mem_rules.mpr ⟨grp, hgrp, rfl, hbody⟩
  rcases List.mem_append.mp hc with hlhs | hc
  · exact .inl ⟨_, hrules first List.mem_cons_self, _, List.mem_cons_self, hlhs⟩
  rcases List.mem_append.mp hc with hinner | hend
  · obtain ⟨t, ht, hc⟩ := List.mem_flatMap.mp hinner
    rcases List.mem_cons.mp hc with rfl | hc
    · exact .inr (by decide)
    cases t with
    | arrow | bar =>
      simp only [Token.chars, List.mem_cons] at hc ⊢
      tauto
    | lineEnd => simp [Line.inner] at ht
    | symbol s =>
      obtain ⟨body, hbody, hs⟩ := Line.symbol_mem_inner_iff.mp ht
      exact .inl ⟨_, hrules body hbody, s, List.mem_cons_of_mem _ hs, hc⟩
  · obtain rfl : c = '\n' := by simpa using hend
    exact .inr (by decide)

theorem plain_of_ofText [Brackets] {g : Grammar} {text : String}
    (hquote : ∀ c ∈ text.toList, isQuote c = false) (h : ofText text = .ok g) :
    ∀ r ∈ g.rules, ∀ s ∈ r.lhs :: r.rhs, Plain s := by
  obtain ⟨rs, hrs, hg⟩ :
      ∃ rs, readLines (pieces text) = .ok rs ∧ ofRules defaultStart rs = g := by
    rw [ofText, Source.rules] at h
    split at h
    · next rs hrs => exact ⟨rs, hrs, Except.ok.inj h⟩
    · cases h
  obtain ⟨lines, hlined, rfl⟩ := readLines_eq_ok_iff.mp hrs
  intro r hr s hs
  rw [← hg, mem_rules_ofRules] at hr
  obtain ⟨l, hl, hr⟩ := List.mem_flatMap.mp hr
  have htoken : Token.symbol s ∈ lines.flatMap Line.tokens :=
    List.mem_flatMap_of_mem hl (Line.symbol_mem_tokens_iff.mpr ⟨r, hr, hs⟩)
  have hpiece : some (.symbol s) ∈ (pieces text).map Piece.token? := by
    rw [hlined]
    exact List.mem_map_of_mem htoken
  obtain ⟨l, hl, _, hs⟩ := exists_lexeme_of_mem_pieces hpiece nofun
  exact plain_of_mem_lexemes hquote hl hs

/-- **Printing and reloading.** A grammar with the default start symbol and without quotes in its
symbols is read back from its text exactly when each of its symbols is written as one lexeme. -/
theorem ofText_text_iff [Brackets] {g : Grammar} (hstart : g.start = defaultStart)
    (hquote : ∀ r ∈ g.rules, ∀ s ∈ r.lhs :: r.rhs, s.toList.any isQuote = false) :
    ofText g.text = .ok g ↔ ∀ r ∈ g.rules, ∀ s ∈ r.lhs :: r.rhs, Plain s := by
  have htext : ∀ c ∈ g.text.toList, isQuote c = false := by
    intro c hc
    apply eq_false_of_ne_true
    rcases mem_text hc with ⟨r, hr, s, hs, hc⟩ | hc
    · exact List.any_eq_false.mp (hquote r hr s hs) c hc
    · have hmarks : [' ', '-', '>', '|', '\n'].any isQuote = false := rfl
      exact List.any_eq_false.mp hmarks c hc
  exact ⟨plain_of_ofText htext, ofText_text hstart⟩

/-- The theorem at a grammar with an alternative without symbols among others, a group that is gone
on with behind another one, brackets and an operator; and at a symbol that is three lexemes. -/
theorem ofText_text_iff_brackets :
    let g := ofRules "S" [⟨"S", ["(", "S", ")"]⟩, ⟨"A_1", ["+="]⟩, ⟨"S", []⟩, ⟨"S", ["A_1"]⟩]
    let g' := ofRules "S" [⟨"S", ["a-b"]⟩]
    g.start = defaultStart ∧ g'.start = defaultStart ∧
      (∀ r ∈ g.rules ++ g'.rules, ∀ s ∈ r.lhs :: r.rhs, s.toList.any isQuote = false) ∧
      ofText g.text = .ok g ∧ ofText g'.text ≠ .ok g' :=
  ⟨by decide, by decide, by decide, (ofText_text_iff (by decide) (by decide)).mpr (by decide),
    mt (ofText_text_iff (by decide) (by decide)).mp (by decide)⟩

end Grammar

end Parsing
