/-
# Categories that have rules

Recognition does not expand a category of the lexicon, so the rules of a category are never
entered. But they count when the nullable symbols are collected, and a symbol that is nullable
only by such rules is skipped all the same. So recognition goes by two sorts of rules: those of
symbols that are no categories, and a rule for the empty row for each nullable symbol that is no
category. What it reaches by the moves of its own is what fits by these rules, save for their
empty ones, which are never entered (`Grammar.reaches_iff_fits_shadowed`).

The texts accepted are those for which the categories' rules do not count at all, provided that
every symbol which is nullable and no category is so without them. That holds if no category is
nullable.

Key definitions: `Grammar.openRules`, `Grammar.skipRules`, `Grammar.shadowed`.
Key theorems: `Derives.of_admissible`, `Grammar.reaches_iff_fits_shadowed`,
`Grammar.derives_openRules`, `Grammar.chart_shadows`.
-/
import Parsing.Proofs.Chart.Exact
import Parsing.Proofs.Chart.Valid

namespace Parsing

/-- Rules that put in place of a symbol what it derives anyway add nothing. -/
theorem Derives.of_admissible {rs rs' : List Rule} {u w : List Symbol}
    (hrs : ∀ r ∈ rs', Derives rs [r.lhs] r.rhs) (h : Derives rs' u w) : Derives rs u w := by
  induction h with
  | refl => exact refl u
  | tail _ hs ih =>
    obtain @⟨r, hr, before, after⟩ := hs
    exact ih.trans ((hrs r hr).context before after)

namespace Grammar

/-! ### Open rules and skipped symbols -/

variable {g : Grammar} {lex : Lexicon} {tokens : List String} {it : Item} {o i : Nat} {r : Rule}

/-- The rules of symbols that are no categories. -/
def openRules (g : Grammar) (lex : Lexicon) : List Rule :=
  g.rules.filter fun r => !lex.isCategory r.lhs

/-- A rule for the empty row for each nullable symbol that is no category. -/
def skipRules (g : Grammar) (lex : Lexicon) : List Rule :=
  (g.nullable.filter fun s => !lex.isCategory s).map fun s => ⟨s, []⟩

/-- The grammar that recognition goes by: categories have no rules, and what is skipped may be
empty. -/
def shadowed (g : Grammar) (lex : Lexicon) : Grammar :=
  ofRules g.start (g.openRules lex ++ g.skipRules lex)

theorem mem_openRules : r ∈ g.openRules lex ↔ r ∈ g.rules ∧ lex.isCategory r.lhs = false := by
  simp [openRules]

theorem mem_skipRules :
    r ∈ g.skipRules lex ↔ r.rhs = [] ∧ r.lhs ∈ g.nullable ∧ lex.isCategory r.lhs = false := by
  simp only [skipRules, List.mem_map, List.mem_filter, Bool.not_eq_true']
  constructor
  · rintro ⟨s, hs, rfl⟩
    exact ⟨rfl, hs⟩
  · rintro ⟨hr, hs⟩
    exact ⟨r.lhs, hs, by rw [← hr]⟩

theorem mem_rules_shadowed :
    r ∈ (g.shadowed lex).rules ↔ r ∈ g.openRules lex ∨ r ∈ g.skipRules lex := by
  rw [shadowed, mem_rules_ofRules, List.mem_append]

theorem isNonterminal_of_mem_nullable {s : Symbol} (h : s ∈ g.nullable) :
    g.isNonterminal s = true :=
  decide_eq_true (g.subset_nonterminals_repeat _ h)

theorem isNonterminal_shadowed_iff {s : Symbol} :
    (g.shadowed lex).isNonterminal s = true ↔ (g.recognizer lex).Expands s := by
  rw [isNonterminal_iff]
  constructor
  · rintro ⟨r, hr, rfl⟩
    rcases mem_rules_shadowed.mp hr with hr | hr
    · obtain ⟨hr, hcat⟩ := mem_openRules.mp hr
      exact ⟨hcat, isNonterminal_iff.mpr ⟨r, hr, rfl⟩⟩
    · obtain ⟨-, hnull, hcat⟩ := mem_skipRules.mp hr
      exact ⟨hcat, isNonterminal_of_mem_nullable hnull⟩
  · rintro ⟨hcat, hs⟩
    obtain ⟨r, hr, rfl⟩ := isNonterminal_iff.mp hs
    exact ⟨r, mem_rules_shadowed.mpr (.inl (mem_openRules.mpr ⟨hr, hcat⟩)), rfl⟩

theorem start_shadowed : (g.shadowed lex).start = g.start := start_extend _ _

theorem startRule_shadowed : (g.shadowed lex).startRule = g.startRule := by
  unfold startRule
  rw [start_shadowed]

theorem Unmarked.shadowed (hg : g.Unmarked) (lex : Lexicon) : (g.shadowed lex).Unmarked := by
  refine ⟨?_, fun r hr => ?_⟩
  · rw [start_shadowed]
    exact hg.1
  · rcases mem_rules_shadowed.mp hr with hr | hr
    · exact hg.2 r (mem_openRules.mp hr).1
    · obtain ⟨hrhs, hnull, -⟩ := mem_skipRules.mp hr
      obtain ⟨r', hr', hl⟩ := isNonterminal_iff.mp (isNonterminal_of_mem_nullable hnull)
      rw [hrhs, ← hl]
      exact ⟨(hg.2 r' hr').1, List.not_mem_nil⟩

theorem apart_shadowed (g : Grammar) (lex : Lexicon) : lex.Apart (g.shadowed lex) := by
  intro e he
  by_contra hs
  have hx := isNonterminal_shadowed_iff.mp (Bool.not_eq_false _ ▸ hs)
  have hcat : lex.isCategory e.1 = true :=
    Lexicon.isCategory_iff.mpr ⟨e.2, decide_eq_true he⟩
  rw [hx.1] at hcat
  cases hcat

/-- The rules that are left out were for categories, which read words anyway. -/
theorem reads_shadowed_iff {s : Symbol} {t : String} :
    (g.shadowed lex).Reads lex s t ↔ g.Reads lex s t := by
  unfold Reads
  refine or_congr_right (and_congr_right fun hcat => and_congr_left fun _ => ?_)
  rw [← Bool.not_eq_true, ← Bool.not_eq_true, isNonterminal_shadowed_iff]
  exact not_congr ⟨(·.2), fun hs => ⟨hcat, hs⟩⟩

/-! ### What is reached -/

theorem fits_of_reaches (hg : g.Unmarked) (h : (g.recognizer lex).Reaches tokens it o i) :
    Fits (g.shadowed lex) ((g.shadowed lex).lexical lex) tokens it o i := by
  induction h with
  | start =>
    have hstart : (g.shadowed lex).startRule = g.startRule := startRule_shadowed
    show Fits _ _ _ (.atStart g.startRule) 0 0
    rw [← hstart]
    exact .start
  | predict _ hs hx hr ih =>
    obtain ⟨hmem, rfl⟩ := mem_rulesFor.mp hr
    have hopen := mem_rules_shadowed.mpr (.inl (mem_openRules.mpr ⟨hmem, hx.1⟩))
    exact .predict ih hs (isNonterminal_shadowed_iff.mpr hx) (mem_rulesFor.mpr ⟨hopen, rfl⟩)
  | @skip it it' o i s _ hs hx hn ha ih =>
    -- the rule for the empty row is entered and complete at once
    have hskip : ⟨s, []⟩ ∈ (g.shadowed lex).rules :=
      mem_rules_shadowed.mpr (.inr (mem_skipRules.mpr ⟨rfl, hn, hx.1⟩))
    have hx := isNonterminal_shadowed_iff.mpr hx
    let done : Item := .atStart ⟨s, []⟩
    have hdone : Fits (g.shadowed lex) ((g.shadowed lex).lexical lex) tokens done i i :=
      .predict ih hs hx (mem_rulesFor.mpr ⟨hskip, rfl⟩)
    have hs : it.next? = some done.lhs := hs
    exact .complete ih hs ha hx hdone rfl
  | scan _ hs hx ha ht hread ih =>
    have hterm := Bool.not_eq_true _ ▸ mt isNonterminal_shadowed_iff.mp hx
    exact .scan ih hs ha ht ((Recognizer.reads_iff hterm).mp hread)
  | complete h hs ha hd hc ih ihd =>
    exact .complete ih hs ha (isNonterminal_shadowed_iff.mpr (h.rule_of_awaited hg hs hd).2) ihd hc

theorem mem_augmented_of_waits (hr : it.rule ∈ (g.shadowed lex).augmented) {s : Symbol}
    (hs : it.next? = some s) : it.rule ∈ g.augmented := by
  rcases List.mem_cons.mp hr with e | hr
  · rw [e, startRule_shadowed]
    exact List.mem_cons_self
  · rcases mem_rules_shadowed.mp hr with hr | hr
    · exact List.mem_cons_of_mem _ (mem_openRules.mp hr).1
    · simp [Item.next?, (mem_skipRules.mp hr).1] at hs

theorem reaches_of_fits (hg : g.Unmarked)
    (h : Fits (g.shadowed lex) ((g.shadowed lex).lexical lex) tokens it o i)
    (hit : it.rule ∈ g.augmented) : (g.recognizer lex).Reaches tokens it o i := by
  induction h with
  | start =>
    rw [startRule_shadowed]
    exact .start
  | @predict it o i s r h hs hx hr ih =>
    obtain ⟨hmem, rfl⟩ := mem_rulesFor.mp hr
    have hmark := ((hg.shadowed lex).2 r hmem).1
    exact .predict (ih (mem_augmented_of_waits h.rule_mem hs)) hs (isNonterminal_shadowed_iff.mp hx)
      (mem_rulesFor.mpr ⟨mem_rules_of_augmented hit hmark, rfl⟩)
  | scan h hs ha ht hread ih =>
    have hterm := ((g.shadowed lex).lexical_proper (g.apart_shadowed lex) tokens).reads _ _ hread
    refine .scan (ih (mem_augmented_of_waits h.rule_mem hs)) hs ?_ ha ht
      ((Recognizer.reads_iff hterm).mpr hread)
    rw [← isNonterminal_shadowed_iff, hterm]
    exact Bool.false_ne_true
  | @complete it it' done o k i h hs ha hx hd hc ih ihd =>
    have hreach := ih (mem_augmented_of_waits h.rule_mem hs)
    have hmem := hd.rule_mem_rules (h.next?_ne (hg.shadowed lex) hs)
    rcases mem_rules_shadowed.mp hmem with hopen | hskip
    · exact .complete hreach hs ha (ihd (List.mem_cons_of_mem _ (mem_openRules.mp hopen).1)) hc
    · -- a rule for the empty row leads nowhere else
      obtain ⟨hrhs, hnull, -⟩ := mem_skipRules.mp hskip
      have hdot : done.dot = 0 := by
        have := done.dot_le
        rw [hrhs] at this
        exact Nat.le_zero.mp this
      obtain rfl := hd.origin_eq hdot
      exact .skip hreach hs (isNonterminal_shadowed_iff.mp hx) hnull ha

/-- **What is reached is what fits by the rules that count**, save for the items of their empty
rules. -/
theorem reaches_iff_fits_shadowed (hg : g.Unmarked) (hit : it.rule ∈ g.augmented) :
    (g.recognizer lex).Reaches tokens it o i ↔
      Fits (g.shadowed lex) ((g.shadowed lex).lexical lex) tokens it o i :=
  ⟨fits_of_reaches hg, fun h => reaches_of_fits hg h hit⟩

/-! ### What is accepted -/

/-- A row stands for a text by the rules that count in one way or the other. -/
theorem standsFor_shadowed_iff {u : List Symbol} :
    (g.shadowed lex).StandsFor lex u tokens ↔
      Yields (g.openRules lex ++ g.skipRules lex) (g.Reads lex) u tokens := by
  have hsub : (g.shadowed lex).rules ⊆ g.openRules lex ++ g.skipRules lex :=
    fun r hr => List.mem_append.mpr (mem_rules_shadowed.mp hr)
  have hsup : g.openRules lex ++ g.skipRules lex ⊆ (g.shadowed lex).rules :=
    fun r hr => mem_rules_shadowed.mpr (List.mem_append.mp hr)
  constructor
  · rintro ⟨w, hd, hw⟩
    exact ⟨w, hd.mono hsub, hw.imp fun _ _ => reads_shadowed_iff.mp⟩
  · rintro ⟨w, hd, hw⟩
    exact ⟨w, hd.mono hsup, hw.imp fun _ _ => reads_shadowed_iff.mpr⟩

/-- Some item that completes the start symbol is reached over all tokens exactly when the
right-hand side of some rule for it stands for them by the rules that count. -/
theorem exists_reached_iff (hg : g.Unmarked) (hstart : lex.isCategory g.start = false) :
    (∃ done, (g.recognizer lex).Reaches tokens done 0 tokens.length ∧ done.isComplete = true ∧
        done.lhs = g.start) ↔
      ∃ r ∈ g.rules, r.lhs = g.start ∧
        Yields (g.openRules lex ++ g.skipRules lex) (g.Reads lex) r.rhs tokens := by
  simp only [← standsFor_shadowed_iff]
  have hgs := hg.shadowed lex
  constructor
  · rintro ⟨done, hd, hc, hl⟩
    have hr : done.rule ∈ g.rules :=
      mem_rules_of_augmented hd.rule_mem fun e => hg.1 (hl.symm.trans e)
    have hy := (fits_of_reaches hg hd).yields_rhs hgs hc
    rw [stretch_all] at hy
    exact ⟨done.rule, hr, hl, hy⟩
  · rintro ⟨r, hr, hl, hy⟩
    have hopen : r ∈ (g.shadowed lex).rules :=
      mem_rules_shadowed.mpr (.inl (mem_openRules.mpr ⟨hr, hl ▸ hstart⟩))
    have hentry : Fits (g.shadowed lex) ((g.shadowed lex).lexical lex) tokens (.atStart r) 0 0 :=
      .predict .start rfl (isNonterminal_iff.mpr ⟨r, hopen, hl.trans start_shadowed.symm⟩)
        (mem_rulesFor.mpr ⟨hopen, hl.trans start_shadowed.symm⟩)
    let done : Item := ⟨r, r.rhs.length, Nat.le_refl _⟩
    have hfits : Fits (g.shadowed lex) ((g.shadowed lex).lexical lex) tokens done 0
        tokens.length := by
      refine .of_yields ((g.shadowed lex).lexical_proper (g.apart_shadowed lex) tokens) hentry
        (Nat.zero_le _) (Nat.le_refl _) ?_
      rwa [stretch_all, List.take_length]
    exact ⟨done, reaches_of_fits hg hfits (List.mem_cons_of_mem _ hr),
      by simp [done, Item.isComplete], hl⟩

/-- Where no category is nullable, nullable symbols derive nothing by rules of symbols that are no
categories. -/
theorem derives_openRules (h : ∀ s ∈ g.nullable, lex.isCategory s = false) {u : List Symbol}
    (hu : Derives g.rules u []) : Derives (g.openRules lex) u [] := by
  induction hu using Relation.ReflTransGen.head_induction_on with
  | refl => exact .refl []
  | head hstep hrest ih =>
    obtain @⟨r, hr, before, after⟩ := hstep
    have hlhs : Derives g.rules (before ++ ([r.lhs] ++ after)) [] :=
      .head (Rewrites.step hr before after) hrest
    obtain ⟨w₁, w, hnil, -, hlhs⟩ := hlhs.split
    obtain ⟨w₂, w₃, rfl, hlhs, -⟩ := hlhs.split
    obtain ⟨rfl, -⟩ := List.append_eq_nil_iff.mp (List.append_eq_nil_iff.mp hnil.symm).2
    have hcat := h _ (mem_nullable_iff.mpr hlhs)
    exact .head (Rewrites.step (mem_openRules.mpr ⟨hr, hcat⟩) before after) ih

/-- **What recognition accepts with categories that have rules.** It accepts the texts for which
the right-hand side of a rule for the start symbol stands, when the rules of categories are left
out and each nullable symbol that is no category may be empty. If these symbols derive nothing
without the categories' rules as well, then such rules do not count at all. -/
theorem chart_shadows (hg : g.Unmarked) (hstart : lex.isCategory g.start = false)
    (tokens : List String) :
    ∃ c, g.chart lex tokens = .ok c ∧
      (c.accepted = true ↔ ∃ r ∈ g.rules, r.lhs = g.start ∧
        Yields (g.openRules lex ++ g.skipRules lex) (g.Reads lex) r.rhs tokens) ∧
      ((∀ s ∈ g.nullable, lex.isCategory s = false → Derives (g.openRules lex) [s] []) →
        (c.accepted = true ↔ ∃ r ∈ g.rules, r.lhs = g.start ∧
          Yields (g.openRules lex) (g.Reads lex) r.rhs tokens)) := by
  obtain ⟨c, hc, hexact⟩ := chart_reaches hg lex tokens
  have haccepted := hexact.accepted.trans (exists_reached_iff hg hstart)
  refine ⟨c, hc, haccepted, fun hnull => haccepted.trans ?_⟩
  have hadmissible : ∀ r ∈ g.openRules lex ++ g.skipRules lex,
      Derives (g.openRules lex) [r.lhs] r.rhs := by
    intro r hr
    rcases List.mem_append.mp hr with hr | hr
    · exact .of_rule hr
    · obtain ⟨hrhs, hmem, hcat⟩ := mem_skipRules.mp hr
      rw [hrhs]
      exact hnull _ hmem hcat
  refine exists_congr fun r => and_congr_right fun _ => and_congr_right fun _ => ⟨?_, ?_⟩
  · rintro ⟨w, hd, hw⟩
    exact ⟨w, hd.of_admissible hadmissible, hw⟩
  · rintro ⟨w, hd, hw⟩
    exact ⟨w, hd.mono (List.subset_append_left _ _), hw⟩

/-- The theorem at a grammar with rules for a category that is not nullable. -/
theorem chart_shadows_nouns :
    let g := ofRules "S" [⟨"S", ["D", "N"]⟩, ⟨"D", ["the"]⟩, ⟨"D", []⟩, ⟨"N", ["N", "N"]⟩]
    let lex := (Lexicon.empty.insert "N" "dog").insert "N" "house"
    ∃ c, g.chart lex ["dog"] = .ok c ∧
      (c.accepted = true ↔ ∃ r ∈ g.rules, r.lhs = g.start ∧
        Yields (g.openRules lex) (g.Reads lex) r.rhs ["dog"]) := by
  intro g lex
  obtain ⟨c, hc, -, hopen⟩ := @chart_shadows g lex (by decide) (by decide) ["dog"]
  exact ⟨c, hc, hopen fun s hs _ => derives_openRules (by decide) (mem_nullable_iff.mp hs)⟩

/-- A symbol that is nullable only by the rule of a category is skipped: `b` is accepted, and not
derived from the start symbol without that rule. -/
theorem chart_not_shadows :
    let g := ofRules "S" [⟨"S", ["A", "b"]⟩, ⟨"A", ["N"]⟩, ⟨"N", []⟩]
    let lex := Lexicon.empty.insert "N" "dog"
    g.Unmarked ∧ lex.isCategory g.start = false ∧
      (g.chart lex ["b"]).toOption.map Chart.accepted = some true ∧
      ¬ Yields (g.openRules lex) (g.Reads lex) [g.start] ["b"] := by
  intro g lex
  refine ⟨by decide, by decide, by decide +kernel, ?_⟩
  rintro ⟨w, hd, hw⟩
  have hread : ¬ g.Reads lex g.start "b" := by
    rintro (hcovers | ⟨-, -, heq⟩)
    · exact absurd hcovers (by decide)
    · exact absurd heq (by decide)
  -- the one rule for the start symbol has two symbols, and no open rule is empty
  have htwo : ∀ r ∈ g.openRules lex, r.lhs = g.start → r.rhs.length = 2 := by decide
  have hlong : ∀ r ∈ g.openRules lex, r.rhs ≠ [] := by decide
  rcases Derives.singleton_iff.mp hd with rfl | ⟨r, hr, hl, hd⟩
  · cases hw with
    | cons h _ => exact hread h
  · have hle := hd.length_le hlong
    rw [htwo r hr hl, hw.length_eq] at hle
    exact absurd hle (by decide)

end Grammar

end Parsing
