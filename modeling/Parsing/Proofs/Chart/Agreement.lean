/-
# Parses and charts agree

At every position of the same tokens a parse and a chart without lexicon have the same items with
the same origins: what the column holds, its pool included, is what the set holds. The two go
about it differently. A parse keeps apart what waits for the token ahead, and finds out at each
position which symbols derive nothing there; recognition keeps all states together, and knows
the nullable symbols beforehand. But each is exact for the items that fit in its own reading,
and on tokens without rules the two readings come to the same: a symbol that is not expanded
reads nothing but itself.

Key theorems: `Fits.of_reading`, `Fits.literal_iff_lexical`, `Grammar.parse_perm_chart`.
-/
import Parsing.Proofs.Chart.Exact
import Parsing.Proofs.Parse.Exact

namespace Parsing

variable {g : Grammar} {tokens : List Symbol} {it : Item} {o i : Nat}

/-! ### Two readings -/

/-- What fits in one reading fits in another one that reads as much of the tokens and expands all
symbols with rules. -/
theorem Fits.of_reading {R R' : Reading} (hg : g.Unmarked)
    (hreads : ∀ s, ∀ t ∈ tokens, R.reads s t → R'.reads s t) (hx : R'.Expands g tokens)
    (h : Fits g R tokens it o i) : Fits g R' tokens it o i := by
  induction h with
  | start => exact .start
  | @predict it o i s r h hs _ hr ih =>
    obtain ⟨hmem, rfl⟩ := Grammar.mem_rulesFor.mp hr
    exact .predict ih hs (hx r hmem i) hr
  | scan h hs ha ht hread ih =>
    exact .scan ih hs ha ht (hreads _ _ (List.mem_of_getElem? ht) hread)
  | @complete it it' done o k i h hs ha _ hd hc ih ihd =>
    exact .complete ih hs ha (hx _ (hd.rule_mem_rules (h.next?_ne hg hs)) k) ihd hc

theorem Grammar.reads_empty_iff {s t : Symbol} :
    g.Reads .empty s t ↔ g.isNonterminal s = false ∧ s = t := by
  simp [Reads, Lexicon.empty, Lexicon.covers, Lexicon.isCategory]

/-- **On tokens without rules the same items fit** for a parse and for a chart without lexicon. -/
theorem Fits.literal_iff_lexical (hg : g.Unmarked) (hT : ∀ t ∈ tokens, g.isNonterminal t = false) :
    Fits g .literal tokens it o i ↔ Fits g (g.lexical .empty) tokens it o i := by
  constructor
  · refine of_reading hg (fun s t ht hread => ?_) (g.lexical_expands .empty tokens)
    obtain rfl : s = t := hread
    exact Grammar.reads_empty_iff.mpr ⟨hT s ht, rfl⟩
  · exact of_reading hg (fun s t _ hread => (Grammar.reads_empty_iff.mp hread).2)
      (Reading.literal_plain hT).expands

/-! ### Columns and sets -/

/-- **A parse and a chart reach the same states.** On tokens without rules both end with as many
positions, and at each of them the entries of the column and its pool have the items and origins
of the states of the set, each once and none else. -/
theorem Grammar.parse_perm_chart (hg : g.Unmarked) (hne : tokens ≠ [])
    (hT : ∀ t ∈ tokens, g.isNonterminal t = false) :
    ∃ p c, g.parse tokens = .ok p ∧ g.chart .empty tokens = .ok c ∧
      p.columns.length = tokens.length + 1 ∧ c.sets.length = tokens.length + 1 ∧
      ∀ (i : Nat) (column : Column) (states : List State), p.columns[i]? = some column →
        c.sets[i]? = some states →
          ((column.entries ++ column.pool).map Entry.slot).Perm (states.map State.slot) := by
  obtain ⟨p, hp, hparse⟩ := g.parse_spec hne
  have hlex : Lexicon.empty.Apart g := by simp [Lexicon.Apart, Lexicon.empty]
  obtain ⟨c, hc, hchart⟩ := g.chart_spec hg hlex tokens
  refine ⟨p, c, hp, hc, hparse.positions, hchart.positions, fun i column states hcol hset => ?_⟩
  refine (List.perm_ext_iff_of_nodup (hparse.column i column hcol).distinct
    (hchart.placed i states hset).nodup_slots).mpr fun ⟨it, o⟩ => ?_
  calc (it, o) ∈ (column.entries ++ column.pool).map Entry.slot
      ↔ Fits g .literal tokens it o i := hparse.has_iff hcol
    _ ↔ Fits g (g.lexical .empty) tokens it o i := Fits.literal_iff_lexical hg hT
    _ ↔ (it, o) ∈ states.map State.slot := (hchart.mem_slots_iff hset).symm

/-- The theorem at a grammar with left recursion and a nullable symbol. -/
theorem Grammar.parse_perm_chart_sums :
    let g := Grammar.ofRules "S" [⟨"S", ["S", "O", "n"]⟩, ⟨"S", ["n"]⟩, ⟨"O", ["+"]⟩, ⟨"O", []⟩]
    ∃ p c, g.parse ["n", "n"] = .ok p ∧ g.chart .empty ["n", "n"] = .ok c ∧
      p.columns.length = 3 ∧ c.sets.length = 3 ∧
      ∀ (i : Nat) (column : Column) (states : List State), p.columns[i]? = some column →
        c.sets[i]? = some states →
          ((column.entries ++ column.pool).map Entry.slot).Perm (states.map State.slot) :=
  Grammar.parse_perm_chart (by decide) (by decide) (by decide)

end Parsing
