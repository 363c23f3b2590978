/-
# Dot text tells derivations apart

Dot text is made of the edges in order, without escapes. When vertices run forward, edges that
compare equal are equal, so the edges of a derivation have one order, and it is the same in what
order they were found. When no label has a double quote, each line is read back from the front: the
text of a vertex ends at the next quote, and its span begins at its last bracket, since numbers have
no bracket. So labels may look like spans, arrows or whole lines. Edges that are put in order give
the same text then only if they are the same edges, each as often.

Key definitions: `Vertex.Forward`, `Edge.Forward`, `Edge.Drawable`, `Derivation.Drawable`.
Key theorems: `Edge.cmp_eq_eq_iff`, `Derivation.sorted_eq_iff`, `Vertex.text_inj`,
`Edge.dotLine_inj`, `Derivation.dot_canonical`.
-/
import Parsing.Derivation.Dot
import Parsing.Proofs.Derivation
import Parsing.Proofs.Text

namespace Parsing

open Text

/-- Whether the vertex does not end before it starts. -/
def Vertex.Forward (v : Vertex) : Prop := v.start ≤ v.stop

instance (v : Vertex) : Decidable v.Forward := inferInstanceAs (Decidable (_ ≤ _))

/-- Whether both ends of the edge run forward. -/
def Edge.Forward (e : Edge) : Prop := e.parent.Forward ∧ e.child.Forward

instance (e : Edge) : Decidable e.Forward := inferInstanceAs (Decidable (_ ∧ _))

/-- Whether both ends run forward, and neither label has a double quote. -/
def Edge.Drawable (e : Edge) : Prop :=
  e.Forward ∧ '"' ∉ e.parent.label.toList ∧ '"' ∉ e.child.label.toList

instance (e : Edge) : Decidable e.Drawable := inferInstanceAs (Decidable (_ ∧ _))

/-- Whether all edges are drawable. -/
def Derivation.Drawable (d : Derivation) : Prop := ∀ e ∈ d.edges, e.Drawable

instance (d : Derivation) : Decidable d.Drawable :=
  inferInstanceAs (Decidable (∀ e ∈ d.edges, e.Drawable))

/-! ### One order -/

namespace Edge

variable {a b : Edge}

theorem cmp_swap (a b : Edge) : b.cmp a = (a.cmp b).swap := Std.OrientedCmp.eq_swap

/-- **Edges that run forward compare equal only if they are equal**: a start and a width give
the end. -/
theorem cmp_eq_eq_iff (ha : a.Forward) (hb : b.Forward) : a.cmp b = .eq ↔ a = b := by
  constructor
  · intro h
    simp only [cmp, Ordering.then_eq_eq, Std.LawfulEqOrd.compare_eq_iff_eq] at h
    obtain ⟨⟨⟨⟨⟨hcs, hcw⟩, hps⟩, hpw⟩, hpl⟩, hcl⟩ := h
    obtain ⟨⟨pl, ps, pe⟩, ⟨cl, cs, ce⟩⟩ := a
    obtain ⟨⟨pl', ps', pe'⟩, ⟨cl', cs', ce'⟩⟩ := b
    simp only [Forward, Vertex.Forward, Vertex.width] at *
    subst hcs hps hpl hcl
    obtain rfl : pe = pe' := by omega
    obtain rfl : ce = ce' := by omega
    rfl
  · rintro rfl
    exact Std.ReflCmp.compare_self

theorem le_antisymm (ha : a.Forward) (hb : b.Forward) (hab : a.le b = true)
    (hba : b.le a = true) : a = b :=
  (cmp_eq_eq_iff ha hb).mp (Std.OrientedCmp.isLE_antisymm hab hba)

end Edge

namespace Derivation

variable {d d' : Derivation}

theorem Drawable.forward (hd : d.Drawable) : ∀ e ∈ d.edges, e.Forward := fun e he => (hd e he).1

/-- **The order in which edges were found does not show** once they are sorted, and nothing else
is lost. -/
theorem sorted_eq_iff (hd : ∀ e ∈ d.edges, e.Forward) :
    d.sorted = d'.sorted ↔ d.edges.Perm d'.edges := by
  constructor
  · intro h
    exact d.sorted_perm.symm.trans (h ▸ d'.sorted_perm)
  · intro h
    have hperm : d.sorted.Perm d'.sorted := (d.sorted_perm.trans h).trans d'.sorted_perm.symm
    refine List.Perm.eq_of_pairwise (fun a b ha hb => ?_) d.pairwise_sorted d'.pairwise_sorted hperm
    exact Edge.le_antisymm (hd a (d.sorted_perm.subset ha))
      (hd b (h.symm.subset (d'.sorted_perm.subset hb)))

end Derivation

/-! ### Reading back -/

namespace Vertex

variable {v w : Vertex}

theorem toList_text (v : Vertex) : v.text.toList =
    (v.label.toList ++ [' ']) ++
      '[' :: ((toString v.start).toList ++ ',' :: ((toString v.stop).toList ++ [']'])) := by
  simp [text]

/-- **Vertices are told apart by their texts**: the span starts at the last bracket. -/
theorem text_inj (h : v.text.toList = w.text.toList) : v = w := by
  have hspan : ∀ u : Vertex, '[' ∉
      (toString u.start).toList ++ ',' :: ((toString u.stop).toList ++ [']']) := by
    intro u
    simp [-Nat.toString_eq_repr, notMem_toString (show Char.isDigit '[' = false from rfl)]
  have hcomma : ∀ n : Nat, ',' ∉ (toString n).toList := notMem_toString rfl
  rw [toList_text, toList_text] at h
  obtain ⟨hlabel, hpair⟩ := append_cons_inj_of_last (hspan v) (hspan w) h
  obtain ⟨hstart, hstop⟩ := append_cons_inj_of_first (hcomma _) (hcomma _) hpair
  cases v
  cases w
  cases String.toList_inj.mp (List.append_cancel_right hlabel)
  cases toString_inj hstart
  cases toString_inj (List.append_cancel_right hstop)
  rfl

theorem quote_notMem_text (hv : '"' ∉ v.label.toList) : '"' ∉ v.text.toList := by
  rw [toList_text]
  simp [-Nat.toString_eq_repr, hv, notMem_toString (show Char.isDigit '"' = false from rfl)]

end Vertex

namespace Edge

variable {a b : Edge} {rest rest' : List Char}

/-- The line of an edge with what follows it, up to its quotes. -/
theorem toList_dotLine_append (e : Edge) (rest : List Char) : e.dotLine.toList ++ rest =
    '"' :: (e.parent.text.toList ++
      '"' :: ([' ', '-', '>', ' '] ++
        '"' :: (e.child.text.toList ++ '"' :: ([';'] ++ rest)))) := by
  simp [dotLine]

/-- **The line of an edge is read back from the front**, whatever follows it. -/
theorem dotLine_inj (ha : a.Drawable) (hb : b.Drawable)
    (h : a.dotLine.toList ++ rest = b.dotLine.toList ++ rest') : a = b ∧ rest = rest' := by
  obtain ⟨-, hap, hac⟩ := ha
  obtain ⟨-, hbp, hbc⟩ := hb
  rw [toList_dotLine_append, toList_dotLine_append] at h
  obtain ⟨hparent, harrow⟩ := append_cons_inj_of_first (Vertex.quote_notMem_text hap)
    (Vertex.quote_notMem_text hbp) (List.tail_eq_of_cons_eq h)
  obtain ⟨hchild, hrest⟩ := append_cons_inj_of_first (Vertex.quote_notMem_text hac)
    (Vertex.quote_notMem_text hbc) (List.tail_eq_of_cons_eq (List.append_cancel_left harrow))
  obtain ⟨p, c⟩ := a
  obtain ⟨p', c'⟩ := b
  cases Vertex.text_inj hparent
  cases Vertex.text_inj hchild
  exact ⟨rfl, List.append_cancel_left hrest⟩

/-- A line for each edge, and the last one. -/
def dotLines (es : List Edge) : List Char :=
  es.flatMap (fun e => '\n' :: '\t' :: e.dotLine.toList) ++ ['\n', '\x7d']

theorem dotLines_cons (e : Edge) (es : List Edge) :
    dotLines (e :: es) = '\n' :: '\t' :: (e.dotLine.toList ++ dotLines es) := by
  simp [dotLines]

/-- Edges are told apart by their lines. -/
theorem dotLines_inj {es es' : List Edge} (hes : ∀ e ∈ es, e.Drawable)
    (hes' : ∀ e ∈ es', e.Drawable) (h : dotLines es = dotLines es') : es = es' := by
  induction es generalizing es' with
  | nil =>
    cases es' with
    | nil => rfl
    | cons e' es' =>
      rw [dotLines_cons] at h
      exact nomatch (List.cons_eq_cons.mp (List.tail_eq_of_cons_eq h)).1
  | cons e es ih =>
    cases es' with
    | nil =>
      rw [dotLines_cons] at h
      exact nomatch (List.cons_eq_cons.mp (List.tail_eq_of_cons_eq h)).1
    | cons e' es' =>
      obtain ⟨he, hes⟩ := List.forall_mem_cons.mp hes
      obtain ⟨he', hrest'⟩ := List.forall_mem_cons.mp hes'
      rw [dotLines_cons, dotLines_cons] at h
      obtain ⟨heq, hlines⟩ := dotLine_inj he he'
        (List.tail_eq_of_cons_eq (List.tail_eq_of_cons_eq h))
      rw [heq, ih hes hrest' hlines]

end Edge

namespace Derivation

theorem toList_toDot (d : Derivation) (name : String) :
    (d.toDot name).toList = ("digraph " ++ name ++ " \x7b").toList ++ Edge.dotLines d.sorted := by
  rw [toDot, String.toList_intercalate, List.cons_append, List.map_cons, intercalate_cons_eq]
  simp [Edge.dotLines, List.flatMap_map]

/-- **Dot text is canonical.** Derivations whose vertices run forward and have no double quote in
their labels have the same text exactly when they have the same edges, each as often. The text lists
the edges of a derivation in order, and that order is total: of any two edges one may stand before
the other, and when both may, or they compare equal, they are the same. -/
theorem dot_canonical (name : String) {d d' : Derivation} (hd : d.Drawable) (hd' : d'.Drawable) :
    (d.toDot name = d'.toDot name ↔ d.edges.Perm d'.edges) ∧
    (d.sorted.Perm d.edges ∧ d.sorted.Pairwise fun a b => a.le b = true) ∧
    (∀ a b : Edge, a.Forward → b.Forward → (a.cmp b = .eq ↔ a = b)) ∧
    (∀ a b : Edge, b.cmp a = (a.cmp b).swap) ∧
    (∀ a b c : Edge, a.le b = true → b.le c = true → a.le c = true) ∧
    (∀ a b : Edge, a.le b = true ∨ b.le a = true) ∧
    (∀ a b : Edge, a.Forward → b.Forward → a.le b = true → b.le a = true → a = b) := by
  have htext : d.toDot name = d'.toDot name ↔ d.sorted = d'.sorted := by
    constructor
    · intro h
      have hlines := congrArg String.toList h
      rw [toList_toDot, toList_toDot] at hlines
      exact Edge.dotLines_inj (fun e he => hd e (d.sorted_perm.subset he))
        (fun e he => hd' e (d'.sorted_perm.subset he)) (List.append_cancel_left hlines)
    · intro h
      rw [toDot, toDot, h]
  refine ⟨htext.trans (sorted_eq_iff hd.forward), ⟨d.sorted_perm, d.pairwise_sorted⟩,
    fun a b ha hb => Edge.cmp_eq_eq_iff ha hb, Edge.cmp_swap, Edge.le_trans,
    fun a b => ?_, fun a b ha hb => Edge.le_antisymm ha hb⟩
  exact Bool.or_eq_true_iff.mp (a.le_total b)

/-- A label that looks like a span, and one with a line feed and an arrow: two edges give the same
text in either order, and another text than one of them alone. -/
theorem dot_canonical_spans :
    (Derivation.mk [⟨⟨"S", 0, 2⟩, ⟨"S [0,1]", 0, 1⟩⟩, ⟨⟨"S", 0, 2⟩, ⟨"a\n -> b", 1, 2⟩⟩]).toDot "g" =
      (Derivation.mk [⟨⟨"S", 0, 2⟩, ⟨"a\n -> b", 1, 2⟩⟩, ⟨⟨"S", 0, 2⟩, ⟨"S [0,1]", 0, 1⟩⟩]).toDot "g" ∧
    (Derivation.mk [⟨⟨"S", 0, 2⟩, ⟨"S [0,1]", 0, 1⟩⟩, ⟨⟨"S", 0, 2⟩, ⟨"a\n -> b", 1, 2⟩⟩]).toDot "g" ≠
      (Derivation.mk [⟨⟨"S", 0, 2⟩, ⟨"S [0,1]", 0, 1⟩⟩]).toDot "g" :=
  ⟨(dot_canonical "g" (by decide) (by decide)).1.mpr (by decide),
    mt (dot_canonical "g" (by decide) (by decide)).1.mp (by decide)⟩

end Derivation

end Parsing
