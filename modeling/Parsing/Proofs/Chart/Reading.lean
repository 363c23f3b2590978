/-
# Reading by a lexicon

A category of the lexicon reads each of its words, a symbol that is neither category nor
nonterminal reads itself, and a nonterminal is expanded by its rules (`Grammar.lexical`). Where no
category has rules, recognition reaches exactly the items that fit in this reading. A nullable
symbol may be skipped because it derives the empty text, and the item with its dot behind the
symbol fits whatever the item before it fits.

Key definitions: `Lexicon.Apart`, `Grammar.Reads`, `Grammar.lexical`.
Key theorems: `Recognizer.reads_iff`, `Grammar.reaches_iff_fits`.
-/
import Parsing.Proofs.Chart.Reaches
import Parsing.Proofs.Context

namespace Parsing

variable {g : Grammar} {lex : Lexicon} {tokens : List String} {it : Item} {o i : Nat}

/-- Whether no category of the lexicon has rules. -/
def Lexicon.Apart (lex : Lexicon) (g : Grammar) : Prop :=
  ∀ e ∈ lex.entries, g.isNonterminal e.1 = false

instance : Decidable (lex.Apart g) :=
  inferInstanceAs (Decidable (∀ e ∈ lex.entries, g.isNonterminal e.1 = false))

theorem Lexicon.Apart.isNonterminal (h : lex.Apart g) {s : Symbol}
    (hs : lex.isCategory s = true) : g.isNonterminal s = false := by
  obtain ⟨w, hw⟩ := Lexicon.isCategory_iff.mp hs
  exact h (s, w) (of_decide_eq_true hw)

namespace Grammar

/-- Whether `s` stands for the token: as a category for a word of it, or as a symbol that is
neither category nor nonterminal for itself. -/
def Reads (g : Grammar) (lex : Lexicon) (s : Symbol) (token : String) : Prop :=
  lex.covers s token = true ∨
    (lex.isCategory s = false ∧ g.isNonterminal s = false ∧ s = token)

/-- The reading by a lexicon: nonterminals are expanded, whatever is ahead. -/
def lexical (g : Grammar) (lex : Lexicon) : Reading :=
  ⟨g.Reads lex, fun s _ => g.isNonterminal s = true⟩

theorem lexical_expands (g : Grammar) (lex : Lexicon) (tokens : List String) :
    (g.lexical lex).Expands g tokens :=
  fun r hr _ => isNonterminal_iff.mpr ⟨r, hr, rfl⟩

theorem lexical_proper (hlex : lex.Apart g) (tokens : List String) :
    (g.lexical lex).Proper g tokens where
  reads s t h := by
    rcases h with h | ⟨-, h, -⟩
    · exact hlex.isNonterminal (Lexicon.isCategory_iff.mpr ⟨t, h⟩)
    · exact h
  expands := g.lexical_expands lex tokens

end Grammar

theorem Recognizer.reads_iff {s : Symbol} (hs : g.isNonterminal s = false) {token : String} :
    (g.recognizer lex).reads s token = true ↔ g.Reads lex s token := by
  unfold Recognizer.reads Grammar.Reads
  split
  · next h => simp [h]
  · next h =>
    have hcover : lex.covers s token ≠ true := fun hc => h (Lexicon.isCategory_iff.mpr ⟨token, hc⟩)
    simp [h, hs, hcover]

theorem Lexicon.Apart.expands_iff (hlex : lex.Apart g) {s : Symbol} :
    (g.recognizer lex).Expands s ↔ g.isNonterminal s = true := by
  refine ⟨(·.2), fun hs => ⟨?_, hs⟩⟩
  by_contra hcat
  rw [hlex.isNonterminal (Bool.not_eq_false _ ▸ hcat)] at hs
  cases hs

/-- **What is reached is what fits** in the reading by the lexicon. -/
theorem Grammar.reaches_iff_fits (hg : g.Unmarked) (hlex : lex.Apart g) :
    (g.recognizer lex).Reaches tokens it o i ↔ Fits g (g.lexical lex) tokens it o i := by
  constructor
  · intro h
    induction h with
    | start => exact .start
    | predict _ hs hx hr ih => exact .predict ih hs hx.2 hr
    | @skip it it' o i s h hs _ hn ha ih =>
      exact Fits.of_reads (g.lexical_expands lex tokens) (by simp) ih hs ha (Nat.le_refl _)
        ih.stop_le (Grammar.derives_of_mem_nullable hn) (by simp)
    | scan _ hs hx ha ht hread ih =>
      have hterm := Bool.not_eq_true _ ▸ mt hlex.expands_iff.mpr hx
      exact .scan ih hs ha ht ((Recognizer.reads_iff hterm).mp hread)
    | complete h hs ha hd hc ih ihd =>
      exact .complete ih hs ha (h.rule_of_awaited hg hs hd).2.2 ihd hc
  · intro h
    induction h with
    | start => exact .start
    | predict _ hs hx hr ih => exact .predict ih hs (hlex.expands_iff.mpr hx) hr
    | scan _ hs ha ht hread ih =>
      have hterm := (g.lexical_proper hlex tokens).reads _ _ hread
      refine .scan ih hs ?_ ha ht ((Recognizer.reads_iff hterm).mpr hread)
      rw [hlex.expands_iff, hterm]
      exact Bool.false_ne_true
    | complete _ hs ha _ _ hc ih ihd => exact .complete ih hs ha ihd hc

end Parsing
