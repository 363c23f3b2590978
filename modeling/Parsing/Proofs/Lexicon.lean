/-
# Lexicons and their rules

A lexicon that is read from a text has an entry for each rule of the text. Put into a grammar these
rules do what the lexicon does: where a category reads a word, its rule brings the word in, and the
word reads itself. The other way round, a rule of the text that is used in a derivation brings in a
word that has no rules, so nothing but the word comes of it, and the category could have read it.

This takes that the lexicon keeps out of the grammar's way (`Lexicon.Beside`): categories do not
have rules, and words are not expanded, neither as nonterminals nor as categories.

Key definitions: `Lexicon.Beside`.
Key theorems: `Lexicon.covers_insertRules`, `Yields.of_word`, `Grammar.standsFor_extend_iff`,
`Grammar.chart_extend_rules`.
-/
import Parsing.Source.Load
import Parsing.Proofs.Acceptance

namespace Parsing

variable {g : Grammar} {lex : Lexicon} {rs : List Rule} {u tokens : List Symbol}

/-! ### The entries of a lexicon -/

namespace Lexicon

/-- The rules put into a lexicon have one word each, and each of them becomes an entry. -/
theorem covers_insertRules {lex lex' : Lexicon} (h : lex.insertRules rs = .ok lex') :
    (∀ r ∈ rs, ∃ word, r.rhs = [word]) ∧
      ∀ c w, lex'.covers c w = true ↔ lex.covers c w = true ∨ ⟨c, [w]⟩ ∈ rs := by
  fun_induction insertRules lex rs with
  | case1 lex =>
    cases h
    simp
  | case2 lex category word rs ih =>
    obtain ⟨hsingle, hcovers⟩ := ih h
    refine ⟨List.forall_mem_cons.mpr ⟨⟨word, rfl⟩, hsingle⟩, fun c w => ?_⟩
    rw [hcovers, covers_insert, or_assoc]
    simp
  | case3 => cases h

/-- Whether the rules are those of the lexicon: one for each entry and no others. -/
def Spells (lex : Lexicon) (rs : List Rule) : Prop :=
  ∀ r, r ∈ rs ↔ ∃ word, r.rhs = [word] ∧ lex.covers r.lhs word = true

/-- **A lexicon is read from a text with its rules.** -/
theorem spells_ofText [Source.Brackets] {text : String} (h : ofText text = .ok lex) :
    ∃ rs, Source.rules text = .ok rs ∧ lex.Spells rs := by
  rw [ofText] at h
  split at h
  · next rs hrs =>
    obtain ⟨hsingle, hcovers⟩ := covers_insertRules h
    have hentry : ∀ c w, lex.covers c w = true ↔ ⟨c, [w]⟩ ∈ rs := by
      simpa [covers, empty] using hcovers
    refine ⟨rs, hrs, fun r => ⟨fun hr => ?_, ?_⟩⟩
    · obtain ⟨word, hword⟩ := hsingle r hr
      refine ⟨word, hword, (hentry _ _).mpr ?_⟩
      rwa [← hword]
    · rintro ⟨word, hword, hcover⟩
      have hmem := (hentry _ _).mp hcover
      rwa [← hword] at hmem
  · cases h

/-- Whether the lexicon keeps out of the way of the grammar: no category has rules or is the start
symbol, no word has rules or is a category, and neither is the reserved symbol. -/
structure Beside (lex : Lexicon) (g : Grammar) : Prop where
  apart : lex.Apart g
  start : lex.isCategory g.start = false
  words : ∀ e ∈ lex.entries, g.isNonterminal e.2 = false ∧ lex.isCategory e.2 = false
  unmarked : ∀ e ∈ lex.entries, e.1 ≠ Grammar.startMark ∧ e.2 ≠ Grammar.startMark

end Lexicon

/-! ### Words in the place of categories -/

/-- Something else may stand in the place of a symbol if it reads what this one reads. -/
theorem forall₂_replace {α β : Type} {P : α → β → Prop} {a b : α} (h : ∀ y, P a y → P b y)
    {before after : List α} {ys : List β} (hP : List.Forall₂ P (before ++ a :: after) ys) :
    List.Forall₂ P (before ++ b :: after) ys := by
  induction before generalizing ys with
  | nil =>
    cases hP with
    | cons hy hrest => exact .cons (h _ hy) hrest
  | cons x before ih =>
    cases hP with
    | cons hy hrest => exact .cons hy (ih hrest)

/-- A row that stands for a text does so with something else in the place of a word, if the word has
no rules and is read as the other is read. -/
theorem Yields.of_word {reads : Symbol → Symbol → Prop} {word c : Symbol}
    (hword : ∀ r ∈ rs, r.lhs ≠ word) (hreads : ∀ t, reads word t → reads c t)
    {before after : List Symbol} (h : Yields rs reads (before ++ ([word] ++ after)) tokens) :
    Yields rs reads (before ++ c :: after) tokens := by
  obtain ⟨w, hd, hr⟩ := h
  obtain ⟨w₁, w', rfl, hd₁, hd'⟩ := hd.split
  obtain ⟨w₂, w₃, rfl, hd₂, hd₃⟩ := hd'.split
  obtain rfl := hd₂.eq_of_terminal hword
  have hafter : Derives rs (c :: after) (c :: w₃) := Derives.append (u := [c]) (.refl [c]) hd₃
  exact ⟨w₁ ++ c :: w₃, hd₁.append hafter, forall₂_replace hreads hr⟩

namespace Grammar

/-! ### A grammar with the rules of a lexicon -/

/-- With the rules of a lexicon the categories have rules as well. -/
theorem isNonterminal_extend_iff (hrs : lex.Spells rs) {s : Symbol} :
    (g.extend rs).isNonterminal s = true ↔ g.isNonterminal s = true ∨ lex.isCategory s = true := by
  simp only [isNonterminal_iff, mem_rules_extend, Lexicon.isCategory_iff]
  constructor
  · rintro ⟨r, hr | hr, rfl⟩
    · exact .inl ⟨r, hr, rfl⟩
    · obtain ⟨word, -, hcover⟩ := (hrs r).mp hr
      exact .inr ⟨word, hcover⟩
  · rintro (⟨r, hr, rfl⟩ | ⟨word, hcover⟩)
    · exact ⟨r, .inl hr, rfl⟩
    · exact ⟨⟨s, [word]⟩, .inr ((hrs _).mpr ⟨word, rfl, hcover⟩), rfl⟩

theorem isNonterminal_extend_eq_false_iff (hrs : lex.Spells rs) {s : Symbol} :
    (g.extend rs).isNonterminal s = false ↔
      g.isNonterminal s = false ∧ lex.isCategory s = false := by
  rw [← Bool.not_eq_true, isNonterminal_extend_iff hrs, not_or, Bool.not_eq_true, Bool.not_eq_true]

/-- What the lexicon lets a symbol read, its rules derive from the symbol. -/
theorem standsFor_of_reads (hlex : lex.Beside g) (hrs : lex.Spells rs) {s t : Symbol}
    (h : g.Reads lex s t) : (g.extend rs).StandsFor .empty [s] [t] := by
  rcases h with hcover | ⟨hcat, hterm, rfl⟩
  · have hr : (⟨s, [t]⟩ : Rule) ∈ (g.extend rs).rules :=
      mem_rules_extend.mpr (.inr ((hrs _).mpr ⟨t, rfl, hcover⟩))
    have ht := (isNonterminal_extend_eq_false_iff hrs).mpr
      (hlex.words (s, t) (of_decide_eq_true hcover))
    exact .of_derives (.of_rule hr) (.single (reads_empty_iff.mpr ⟨ht, rfl⟩))
  · have hs := (isNonterminal_extend_eq_false_iff hrs).mpr ⟨hterm, hcat⟩
    exact .single (reads_empty_iff.mpr ⟨hs, rfl⟩)

/-- **A row stands for the same texts by a lexicon and by its rules.** From the rules to the lexicon
the induction is over the steps of the derivation, of which those by the rules of the lexicon fall
away. -/
theorem standsFor_extend_iff (hlex : lex.Beside g) (hrs : lex.Spells rs) :
    (g.extend rs).StandsFor .empty u tokens ↔ g.StandsFor lex u tokens := by
  constructor
  · intro h
    obtain ⟨hT, hd⟩ := standsFor_empty_iff.mp h
    induction hd using Relation.ReflTransGen.head_induction_on with
    | refl =>
      refine ⟨tokens, .refl tokens, List.forall₂_same.mpr fun t ht => .inr ?_⟩
      obtain ⟨hterm, hcat⟩ := (isNonterminal_extend_eq_false_iff hrs).mp (hT t ht)
      exact ⟨hcat, hterm, rfl⟩
    | head hs hrest ih =>
      obtain @⟨r, hr, before, after⟩ := hs
      have hrest := ih (standsFor_empty_iff.mpr ⟨hT, hrest⟩)
      rcases mem_rules_extend.mp hr with hr | hr
      · exact .of_derives (Relation.ReflTransGen.single (.step hr before after)) hrest
      · obtain ⟨word, hword, hcover⟩ := (hrs r).mp hr
        obtain ⟨hterm, hcat⟩ := hlex.words (r.lhs, word) (of_decide_eq_true hcover)
        rw [hword] at hrest
        refine hrest.of_word (isNonterminal_eq_false_iff.mp hterm) fun t hread => .inl ?_
        -- the word is no category, so it reads itself
        rcases hread with hwords | ⟨-, -, rfl⟩
        · rw [Lexicon.isCategory_iff.mpr ⟨t, hwords⟩] at hcat
          cases hcat
        · exact hcover
  · rintro ⟨w, hd, hw⟩
    have hread : (g.extend rs).StandsFor .empty w tokens := by
      clear hd
      induction hw with
      | nil => exact .nil
      | cons hread _ ih => exact (standsFor_of_reads hlex hrs hread).append ih
    exact .of_derives (hd.mono fun r hr => mem_rules_extend.mpr (.inl hr)) hread

theorem Unmarked.extend (hg : g.Unmarked) (hlex : lex.Beside g) (hrs : lex.Spells rs) :
    (g.extend rs).Unmarked := by
  refine ⟨by rw [start_extend]; exact hg.1, fun r hr => ?_⟩
  rcases mem_rules_extend.mp hr with hr | hr
  · exact hg.2 r hr
  · obtain ⟨word, hword, hcover⟩ := (hrs r).mp hr
    obtain ⟨hlhs, hmark⟩ := hlex.unmarked (r.lhs, word) (of_decide_eq_true hcover)
    refine ⟨hlhs, ?_⟩
    rw [hword, List.mem_singleton]
    exact hmark.symm

/-- Rules of a lexicon do not become rules for the start symbol. -/
theorem mem_rules_extend_start_iff (hlex : lex.Beside g) (hrs : lex.Spells rs) {r : Rule} :
    r ∈ (g.extend rs).rules ∧ r.lhs = g.start ↔ r ∈ g.rules ∧ r.lhs = g.start := by
  refine and_congr_left fun hl => mem_rules_extend.trans (or_iff_left fun hr => ?_)
  obtain ⟨word, -, hcover⟩ := (hrs r).mp hr
  have hcat := hlex.start
  rw [← hl, Lexicon.isCategory_iff.mpr ⟨word, hcover⟩] at hcat
  cases hcat

/-- **A lexicon is the same as its rules.** If a lexicon is read from a text, the rules of the
text are read from it as well. A chart by the grammar and the lexicon then accepts what a chart
without lexicon accepts by the grammar with these rules; and on texts of symbols without rules so
does a parse. -/
theorem chart_extend_rules [Source.Brackets] {text : String} (h : Lexicon.ofText text = .ok lex)
    (hg : g.Unmarked) (hlex : lex.Beside g) :
    ∃ rs, Source.rules text = .ok rs ∧ ∀ tokens, ∃ c c',
      g.chart lex tokens = .ok c ∧ (g.extend rs).chart .empty tokens = .ok c' ∧
      c.accepted = c'.accepted ∧
      (tokens ≠ [] → (∀ t ∈ tokens, (g.extend rs).isNonterminal t = false) →
        ∃ p, (g.extend rs).parse tokens = .ok p ∧ p.accepts = c.accepted) := by
  obtain ⟨rs, hrules, hrs⟩ := Lexicon.spells_ofText h
  have hg' := hg.extend hlex hrs
  have hempty : Lexicon.empty.Apart (g.extend rs) := by simp [Lexicon.Apart, Lexicon.empty]
  refine ⟨rs, hrules, fun tokens => ?_⟩
  obtain ⟨c, hc, hchart⟩ := g.chart_spec hg hlex.apart tokens
  obtain ⟨c', hc', hchart'⟩ := (g.extend rs).chart_spec hg' hempty tokens
  have haccepted : c.accepted = c'.accepted := by
    rw [Bool.eq_iff_iff, hchart.accepted, hchart'.accepted, exists_done_iff_standsFor hg hlex.apart,
      exists_done_iff_standsFor hg' hempty, start_extend]
    simp only [standsFor_extend_iff hlex hrs, ← and_assoc, mem_rules_extend_start_iff hlex hrs]
  refine ⟨c, c', hc, hc', haccepted, fun hne hT => ?_⟩
  obtain ⟨p, hp, hparse⟩ := (g.extend rs).parse_spec hne
  exact ⟨p, hp, (hparse.accepts_eq hg' hT hchart').trans haccepted.symm⟩

/-- The theorem at a text with two words in a category, one of them also in another category and
one also a symbol of the grammar. -/
theorem chart_extend_rules_verbs :
    let g := ofRules "S" [⟨"S", ["N", "V"]⟩, ⟨"S", ["S", "and", "S"]⟩]
    let text := "N -> dogs | bark\nV -> bark # a verb\nC -> and\n"
    let lex : Lexicon := ⟨[("N", "dogs"), ("N", "bark"), ("V", "bark"), ("C", "and")]⟩
    Lexicon.ofText text = .ok lex ∧ g.Unmarked ∧ lex.Beside g ∧
      ∃ rs, Source.rules text = .ok rs ∧ ∀ tokens, ∃ c c',
        g.chart lex tokens = .ok c ∧ (g.extend rs).chart .empty tokens = .ok c' ∧
        c.accepted = c'.accepted ∧
        (tokens ≠ [] → (∀ t ∈ tokens, (g.extend rs).isNonterminal t = false) →
          ∃ p, (g.extend rs).parse tokens = .ok p ∧ p.accepts = c.accepted) := by
  intro g text lex
  have hrules : Source.rules text =
      .ok [⟨"N", ["dogs"]⟩, ⟨"N", ["bark"]⟩, ⟨"V", ["bark"]⟩, ⟨"C", ["and"]⟩] := by decide +kernel
  have hlex : Lexicon.ofText text = .ok lex := by
    rw [Lexicon.ofText, hrules]
    rfl
  have hg : g.Unmarked := by decide
  have hbeside : lex.Beside g := ⟨by decide, by decide, by decide, by decide⟩
  exact ⟨hlex, hg, hbeside, chart_extend_rules hlex hg hbeside⟩

end Grammar

end Parsing
