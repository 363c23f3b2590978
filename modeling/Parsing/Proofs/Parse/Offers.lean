/-
# One node for each item

A column tells its entries apart by item and origin. An entry that is offered to it is turned away
if the column holds its item with its origin already, whatever node either of them has. Nothing is
lost by that. Every entry that a parse offers carries the node that its item, its origin and the
position call for: none with the dot at the start, and otherwise the node of the item's label over
the span. So two entries of one item and one origin carry one node, and a column holds just
what it would hold if it told entries apart by their nodes as well (`Column.offer_ofOffers`). An
entry that arrives a second time differs from the first in the family of its last move alone, and
that family has been given to the node before the entry was offered.

The events of a parse list every offer, also of an entry that is turned away, and every move of a
dot, so all this can be said of whatever was ever offered. The step lemmas follow the moves of a
parse (`Run.Recorded.advance` to `Run.Recorded.shift`), and `Stage.Reached.recorded` takes them
along its stages. An entry of a rule without a right-hand side is offered without a node and gets
one when it is worked on, so a column is compared with its offers as its entries were when they
came in (`Column.asOffered`).

Key definitions: `Item.HasLabel`, `Entry.HasNode`, `Entry.Carries`, `Run.offers`, `Parse.offers`,
`Column.ofOffers`, `Column.asOffered`, `Arrived`, `Run.Recorded`.
Key theorems: `Entry.Fresh.carries`, `Entry.Fresh.eq_of_slot`, `Column.offer_ofOffers`,
`Run.Recorded.visit`, `Run.Recorded.shift`, `Stage.Reached.recorded`, `Grammar.parse_one_node`.
-/
import Parsing.Proofs.Forest.History
import Parsing.Proofs.Parse.Stages

namespace Parsing

/-! ### The node that an entry carries -/

/-- Whether the label is the one for what the item has recognised: its left-hand side if it is
complete, the first symbol if that is all, and else the item itself. -/
structure Item.HasLabel (it : Item) (label : Label) : Prop where
  complete : it.isComplete = true → label = .symbol it.lhs
  first : it.isComplete = false → it.dot = 1 → it.rule.rhs.head?.map .symbol = some label
  part : it.isComplete = false → it.dot ≠ 1 → label = .item it

/-- Whether the entry has a node that spans from its origin to the position and has the label for
its item. -/
def Entry.HasNode (f : Forest) (pos : Nat) (e : Entry) : Prop :=
  ∃ id n, e.node? = some id ∧ f.nodes[id]? = some n ∧
    n.key.start = e.origin ∧ n.key.stop = pos ∧ e.item.HasLabel n.key.label

/-- Whether the entry has the node that it is to be offered with: none with the dot at the start,
and otherwise the one for its item. -/
structure Entry.Carries (f : Forest) (pos : Nat) (e : Entry) : Prop where
  bare : e.item.dot = 0 → e.node? = none
  node : e.item.dot ≠ 0 → e.HasNode f pos

theorem Item.hasLabel_label (it : Item) : it.HasLabel it.label where
  complete := label_of_isComplete
  first hc hd := by
    have hle := it.dot_le
    rw [hd] at hle
    obtain ⟨s, hs⟩ : ∃ s, it.rule.rhs.head? = some s := by
      cases hrhs : it.rule.rhs with
      | nil => simp [hrhs] at hle
      | cons s rest => exact ⟨s, rfl⟩
    simp [label, hc, hd, List.take_one, hs]
  part := label_of_dot_ne_one

variable {g : Grammar} {tokens : List Symbol} {f f' : Forest} {pos : Nat}

namespace Entry

variable {a b e : Entry} {es : List Entry}

theorem Sound.hasNode (h : e.Sound g tokens f pos) {id : NodeId} (hid : e.node? = some id) :
    e.HasNode f pos := by
  obtain ⟨n, hn, hkey⟩ := Forest.key?_eq_some_iff.mp (h.key id hid)
  refine ⟨id, n, hid, hn, ?_, ?_, ?_⟩ <;> rw [hkey]
  exact e.item.hasLabel_label

theorem Fresh.carries (h : e.Fresh g tokens f pos) : e.Carries f pos where
  bare := h.bare
  node hd := by
    obtain ⟨id, hid⟩ := h.exists_node hd
    exact h.hasNode hid

/-- **One item from one origin has one node**: a key names one node of the forest. -/
theorem Fresh.eq_of_slot (hf : f.Valid) (ha : a.Fresh g tokens f pos) (hb : b.Fresh g tokens f pos)
    (h : a.slot = b.slot) : a = b := by
  obtain ⟨it, o, node?⟩ := a
  obtain ⟨it', o', node?'⟩ := b
  obtain ⟨rfl, rfl⟩ : it = it' ∧ o = o' := Prod.mk.inj h
  have hnode : node?.map f.key? = (it.key? o pos).map some := ha.node
  have hnode' : node?'.map f.key? = (it.key? o pos).map some := hb.node
  cases hkey : it.key? o pos with
  | none =>
    rw [hkey, Option.map_none, Option.map_eq_none_iff] at hnode hnode'
    rw [hnode, hnode']
  | some key =>
    rw [hkey, Option.map_some] at hnode hnode'
    obtain ⟨id, rfl, hid⟩ := Option.map_eq_some_iff.mp hnode
    obtain ⟨id', rfl, hid'⟩ := Option.map_eq_some_iff.mp hnode'
    rw [hf.key_inj hid hid']

/-- Among entries as they are offered one of the same item and origin is the entry itself. -/
theorem Fresh.insertInto_eq (hf : f.Valid) (he : e.Fresh g tokens f pos)
    (hes : ∀ b ∈ es, b.Fresh g tokens f pos) :
    e.insertInto es = if e ∈ es then es else es ++ [e] := by
  have hany : es.any e.sameKey = true ↔ e ∈ es := by
    rw [List.any_eq_true]
    constructor
    · rintro ⟨b, hb, hk⟩
      rwa [he.eq_of_slot hf (hes b hb) (sameKey_iff.mp hk).symm]
    · intro hmem
      exact ⟨e, hmem, sameKey_iff.mpr rfl⟩
  simp only [insertInto, hany]

/-- The entry as it was offered: with the dot at the start it had no node. -/
def asOffered (e : Entry) : Entry := if e.item.dot = 0 then { e with node? := none } else e

theorem slot_asOffered (e : Entry) : e.asOffered.slot = e.slot := by
  unfold asOffered
  split <;> rfl

theorem Fresh.asOffered_eq (h : e.Fresh g tokens f pos) : e.asOffered = e := by
  unfold asOffered
  split
  · next hd => rw [← h.bare hd]
  · rfl

theorem map_asOffered_insertInto (h : e.asOffered = e) :
    (e.insertInto es).map asOffered = e.insertInto (es.map asOffered) := by
  have hkey : ∀ b : Entry, e.sameKey b.asOffered = e.sameKey b := fun b => by
    rw [Bool.eq_iff_iff, sameKey_iff, sameKey_iff, slot_asOffered]
  have hany : (es.map asOffered).any e.sameKey = es.any e.sameKey := by
    rw [List.any_map]
    exact congrArg es.any (funext hkey)
  unfold insertInto
  rw [hany]
  split
  · rfl
  · rw [List.map_append, List.map_singleton, h]

end Entry

/-! ### Columns told by offers -/

/-- The column of the entries, each taken in once where it belongs; entries are told apart by their
nodes as well. -/
def Column.ofOffers (ahead : Option Symbol) (es : List Entry) : Column :=
  ⟨(es.filter fun e => !e.scans ahead).eraseDups, (es.filter fun e => e.scans ahead).eraseDups⟩

theorem Column.mem_ofOffers {e : Entry} {es : List Entry} {ahead : Option Symbol} :
    e ∈ (ofOffers ahead es).entries ++ (ofOffers ahead es).pool ↔ e ∈ es := by
  cases hs : e.scans ahead <;> simp [ofOffers, hs]

/-- **A column may leave nodes out of account**: with one more offer it holds what it would hold if
it told entries apart by their nodes. -/
theorem Column.offer_ofOffers {e : Entry} {es : List Entry} (ahead : Option Symbol) (hf : f.Valid)
    (he : e.Fresh g tokens f pos) (hes : ∀ b ∈ es, b.Fresh g tokens f pos) :
    (ofOffers ahead es).offer ahead e = ofOffers ahead (es ++ [e]) := by
  have hsub : ∀ (p : Entry → Bool), ∀ b ∈ (es.filter p).eraseDups, b.Fresh g tokens f pos :=
    fun p b hb => hes b (List.mem_of_mem_filter (List.mem_eraseDups.mp hb))
  unfold offer ofOffers
  by_cases hs : e.scans ahead = true
  · rw [if_pos hs, he.insertInto_eq hf (hsub _), ← eraseDups_concat]
    simp [hs]
  · rw [if_neg hs, he.insertInto_eq hf (hsub _), ← eraseDups_concat]
    simp [hs]

/-- The column as its entries were when they came in. -/
def Column.asOffered (c : Column) : Column := ⟨c.entries.map Entry.asOffered, c.pool⟩

theorem Column.asOffered_offer {e : Entry} (h : e.asOffered = e) (c : Column)
    (ahead : Option Symbol) : (c.offer ahead e).asOffered = c.asOffered.offer ahead e := by
  unfold offer
  split
  · rfl
  · exact congrArg (fun es => Column.mk es c.pool) (Entry.map_asOffered_insertInto h)

/-- An entry that has its dot at the start came in without the node that it gets. -/
theorem Column.asOffered_setNode {c : Column} {cursor : Nat} {e : Entry}
    (he : c.entries[cursor]? = some e) (hd : e.item.dot = 0) (id : NodeId) :
    (c.setNode cursor id).asOffered = c.asOffered := by
  refine congrArg (fun es => Column.mk es c.pool) (List.ext_getElem? fun i => ?_)
  rw [List.getElem?_map, List.getElem?_map, getElem?_setNode]
  by_cases hi : cursor = i
  · rw [← hi, he]
    simp [Entry.asOffered, hd]
  · simp [hi]

/-- The entry that the event offers to the column of the position, if it does. -/
def ParseEvent.offerTo? (pos : Nat) : ParseEvent → Option Entry
  | offered i e => if i = pos then some e else none
  | _ => none

/-- All entries offered so far to the column of the position, in order. -/
def Run.offers (run : Run) (pos : Nat) : List Entry :=
  (run.events.filterMap (ParseEvent.offerTo? pos)).reverse

/-- All entries that were offered to the column of the position, in order. -/
def Parse.offers (p : Parse) (pos : Nat) : List Entry :=
  p.events.filterMap (ParseEvent.offerTo? pos)

/-! ### Moves and their families -/

/-- Whether a dot that moved over the node `right` has arrived: it moved from an entry offered where
the node starts, and the item was offered where the node stops with a node that has the family of
both, or that is `right` itself if the item has none of its own. -/
inductive Arrived (f : Forest) (offers : Nat → List Entry) : Item → Nat → Nat → NodeId → Prop
  | own {w : Entry} {it : Item} {k i : Nat} {s : Symbol} {id right : NodeId} (hw : w ∈ offers k)
      (hs : w.item.next? = some s) (ha : w.item.advance = .ok it)
      (hright : f.key? right = some ⟨k, i, .symbol s⟩) (ho : it.owned)
      (he : ⟨it, w.origin, some id⟩ ∈ offers i) (hfam : f.Has id ⟨w.node?, right⟩) :
      Arrived f offers it w.origin i right
  | first {w : Entry} {it : Item} {k i : Nat} {s : Symbol} {right : NodeId} (hw : w ∈ offers k)
      (hs : w.item.next? = some s) (ha : w.item.advance = .ok it)
      (hright : f.key? right = some ⟨k, i, .symbol s⟩) (ho : ¬ it.owned)
      (he : ⟨it, w.origin, some right⟩ ∈ offers i) : Arrived f offers it w.origin i right

namespace Forest

variable {id : NodeId} {key right : NodeKey} {left? : Option NodeKey} {fam : Family}

theorem Grows.has (h : f.Grows f') (hhas : f.Has id fam) : f'.Has id fam := by
  obtain ⟨n, hn, hfam⟩ := hhas
  obtain ⟨n', hn', -, hprefix⟩ := h id n hn
  exact ⟨n', hn', hprefix.subset hfam⟩

/-- A family told by keys is a family of the one node that is known by the key. -/
theorem Valid.has_of_packs (hf : f.Valid) (hid : f.key? id = some key)
    (hp : f.Packs key left? right) (hnames : f.Names fam left? right) : f.Has id fam := by
  obtain ⟨n, hn, rfl, fam', hfam, hnames'⟩ := hp
  obtain ⟨m, hm, hkey⟩ := key?_eq_some_iff.mp hid
  obtain rfl := hf.node_inj (List.mem_of_getElem? hm) hn hkey
  obtain rfl := hf.family_inj hnames hnames'
  exact ⟨m, hm, hfam⟩

/-- For an item without a node of its own the symbol's node is taken, and the forest is left as it
is. -/
theorem nodeFor_of_not_owned {it : Item} (h : ¬ it.owned) (start stop : Nat) (left : Option NodeId)
    (right : NodeId) : f.nodeFor it start stop left right = .ok (right, f) := by
  obtain ⟨hc, hd⟩ := not_or.mp h
  unfold nodeFor
  rw [if_pos ⟨Bool.not_eq_true _ ▸ hc, not_not.mp hd⟩]

end Forest

theorem Arrived.mono {offers offers' : Nat → List Entry} {it : Item} {o i : Nat} {right : NodeId}
    (h : Arrived f offers it o i right) (hgr : f.Grows f') (hsub : ∀ i, offers i ⊆ offers' i) :
    Arrived f' offers' it o i right := by
  cases h with
  | own hw hs ha hright ho he hfam =>
    exact .own (hsub _ hw) hs ha (hgr.key? hright) ho (hsub _ he) (hgr.has hfam)
  | first hw hs ha hright ho he => exact .first (hsub _ hw) hs ha (hgr.key? hright) ho (hsub _ he)

namespace Run

variable {run run' : Run} {e : Entry} {i k : Nat}

theorem offers_note {ev : ParseEvent} (hev : ev.offerTo? i = none) :
    (run.note ev).offers i = run.offers i := by
  simp [offers, note, hev]

theorem offers_offer_position (run : Run) (e : Entry) :
    (run.offer e).offers run.position = run.offers run.position ++ [e] := by
  simp [offers, offer, note, ParseEvent.offerTo?]

theorem offers_offer_ne (run : Run) (e : Entry) (hi : i ≠ run.position) :
    (run.offer e).offers i = run.offers i := by
  simp [offers, offer, note, ParseEvent.offerTo?, hi.symm]

theorem offers_subset_offer (run : Run) (e : Entry) (i : Nat) :
    run.offers i ⊆ (run.offer e).offers i := by
  by_cases hi : i = run.position
  · subst hi
    rw [offers_offer_position]
    exact List.subset_append_left _ _
  · rw [offers_offer_ne run e hi]
    exact List.Subset.refl _

theorem offers_subset_advance {right : NodeId} (h : run.advance e right = .ok run') (i : Nat) :
    run.offers i ⊆ run'.offers i := by
  obtain ⟨it, id, f, -, -, rfl⟩ := advance_eq_ok_iff.mp h
  exact offers_subset_offer
    (({ run with forest := f } : Run).note (.advanced it e.origin run.position right)) _ i

theorem offers_subset_predict (run : Run) (g : Grammar) (s : Symbol) (i : Nat) :
    run.offers i ⊆ (run.predict g s).offers i := by
  suffices ∀ (rs : List Rule) (run' : Run), run'.offers i ⊆ (rs.foldl
      (fun run' r => run'.offer ⟨Item.atStart r, run'.position, none⟩) run').offers i by
    have hnote : (run.note (.predicted s run.position)).offers i = run.offers i := offers_note rfl
    exact hnote ▸ this (g.rulesFor s) (run.note (.predicted s run.position))
  intro rs
  induction rs with
  | nil => exact fun run' => List.Subset.refl _
  | cons r rs ih => exact fun run' => List.Subset.trans (offers_subset_offer run' _ i) (ih _)

/-- What the events of a parse under way tell: all entries offered so far carry the nodes that they
are to have, each column up to the present one holds what was offered to it, and every dot that
moved has arrived. -/
structure Recorded (g : Grammar) (tokens : List Symbol) (run : Run) : Prop where
  fresh : ∀ i, ∀ e ∈ run.offers i, e.Fresh g tokens run.forest i
  column : ∀ (i : Nat) (c : Column), run.columns[i]? = some c →
    c.asOffered = .ofOffers tokens[i]? (run.offers i)
  beyond : ∀ i, run.position < i → run.offers i = []
  arrived : ∀ it o i right, .advanced it o i right ∈ run.events →
    Arrived run.forest run.offers it o i right

namespace Recorded

/-- An entry that is still as it was offered was offered. -/
theorem mem_offers (r : run.Recorded g tokens) {c : Column} (hc : run.columns[k]? = some c)
    (he : e ∈ c.entries ++ c.pool) (hfresh : e.Fresh g tokens run.forest k) :
    e ∈ run.offers k := by
  have hmem : e ∈ c.asOffered.entries ++ c.asOffered.pool := by
    rcases List.mem_append.mp he with he | he
    · exact List.mem_append_left _ (List.mem_map.mpr ⟨e, he, hfresh.asOffered_eq⟩)
    · exact List.mem_append_right _ he
  rw [r.column k c hc] at hmem
  exact Column.mem_ofOffers.mp hmem

/-- What offers nothing and leaves the columns as they were offered keeps the record, if no dot
moves but those that have arrived. -/
theorem of_offers (r : run.Recorded g tokens) (hoffers : ∀ i, run'.offers i = run.offers i)
    (hcolumns : run'.columns.map Column.asOffered = run.columns.map Column.asOffered)
    (hgr : run.forest.Grows run'.forest)
    (hmoves : ∀ it o i right, .advanced it o i right ∈ run'.events →
      .advanced it o i right ∈ run.events ∨ Arrived run.forest run.offers it o i right) :
    run'.Recorded g tokens where
  fresh i e he := by
    rw [hoffers] at he
    exact (r.fresh i e he).mono hgr
  column i c hc := by
    have hmap := congrArg (·[i]?) hcolumns
    simp only [List.getElem?_map, hc, Option.map_some] at hmap
    obtain ⟨c₀, hc₀, heq⟩ := Option.map_eq_some_iff.mp hmap.symm
    rw [hoffers, ← heq]
    exact r.column i c₀ hc₀
  beyond i hi := by
    have hlen := congrArg List.length hcolumns
    rw [List.length_map, List.length_map, length_columns, length_columns] at hlen
    rw [hoffers]
    exact r.beyond i (by omega)
  arrived it o i right hev := by
    have harrived : Arrived run.forest run.offers it o i right := by
      rcases hmoves it o i right hev with hev | harrived
      · exact r.arrived it o i right hev
      · exact harrived
    exact harrived.mono hgr fun i => (hoffers i).symm ▸ List.Subset.refl _

theorem note (r : run.Recorded g tokens) (ev : ParseEvent) (hev : ∀ i, ev.offerTo? i = none)
    (hmove : ∀ it o i right, ev ≠ .advanced it o i right) : (run.note ev).Recorded g tokens := by
  refine r.of_offers (fun i => offers_note (hev i)) rfl (.refl _) fun it o i right hmem => ?_
  rcases List.mem_cons.mp hmem with heq | hmem
  · exact absurd heq.symm (hmove it o i right)
  · exact .inl hmem

theorem withForest (r : run.Recorded g tokens) (hgr : run.forest.Grows f) :
    ({ run with forest := f } : Run).Recorded g tokens :=
  r.of_offers (fun _ => rfl) rfl hgr fun _ _ _ _ => .inl

theorem enlist (r : run.Recorded g tokens) (e : Entry) (id : NodeId) :
    (run.enlist e id).Recorded g tokens := by
  unfold Run.enlist
  split
  · exact r.of_offers (fun _ => rfl) rfl (.refl _) fun _ _ _ _ => .inl
  · exact r

/-- **An entry is offered.** Its column takes it in unless it holds the very entry. -/
theorem offer (r : run.Recorded g tokens) (hahead : run.ahead = tokens[run.position]?)
    (hf : run.forest.Valid) (he : e.Fresh g tokens run.forest run.position) :
    (run.offer e).Recorded g tokens where
  fresh i b hb := by
    by_cases hi : i = run.position
    · subst hi
      rw [offers_offer_position] at hb
      rcases List.mem_append.mp hb with hb | hb
      · exact r.fresh _ b hb
      · rwa [List.mem_singleton.mp hb]
    · rw [offers_offer_ne run e hi] at hb
      exact r.fresh i b hb
  column i c hc := by
    have hcol := r.column i
    rw [getElem?_columns] at hc hcol
    change (if i = run.position then some (run.column.offer run.ahead e) else run.closed[i]?) =
      some c at hc
    by_cases hi : i = run.position
    · subst hi
      rw [if_pos rfl] at hc hcol
      obtain rfl := Option.some.inj hc
      rw [offers_offer_position, ← Column.offer_ofOffers _ hf he (r.fresh _), ← hcol _ rfl, ← hahead]
      exact Column.asOffered_offer he.asOffered_eq _ _
    · rw [if_neg hi] at hc hcol
      rw [offers_offer_ne run e hi]
      exact hcol c hc
  beyond i hi := by
    have hi : run.position < i := hi
    rw [offers_offer_ne run e (Nat.ne_of_gt hi)]
    exact r.beyond i hi
  arrived it o i right hev := by
    have hev := (List.mem_cons.mp hev).resolve_left nofun
    exact (r.arrived it o i right hev).mono (.refl _) (offers_subset_offer run e)

/-- A new column starts empty, and nothing was offered to it before. -/
theorem stepped (r : run.Recorded g tokens) (ahead : Option Symbol) :
    (run.stepped ahead).Recorded g tokens where
  fresh := r.fresh
  column i c hc := by
    rw [columns_stepped] at hc
    by_cases hi : i < run.columns.length
    · rw [List.getElem?_append_left hi] at hc
      exact r.column i c hc
    · rw [List.getElem?_append_right (Nat.le_of_not_lt hi)] at hc
      obtain rfl : c = Column.empty := by simpa using List.mem_of_getElem? hc
      rw [length_columns] at hi
      have hnone : (run.stepped ahead).offers i = [] := r.beyond i (by omega)
      rw [hnone]
      rfl
  beyond i hi := by
    rw [position_stepped] at hi
    exact r.beyond i (Nat.lt_of_succ_lt hi)
  arrived := r.arrived

/-! ### What the moves of a parse record -/

/-- **A dot moves over a node.** The entry that is offered then carries the node for its item, and
the node has the family of the move. -/
theorem advance (r : run.Recorded g tokens) (h : run.Sound g tokens) {s : Symbol} {right : NodeId}
    (hw : e ∈ run.offers k) (hs : e.item.next? = some s) (hx : Spans g tokens s k run.position)
    (hright : run.forest.key? right = some ⟨k, run.position, .symbol s⟩)
    (hrun : run.advance e right = .ok run') : run'.Recorded g tokens := by
  have he := r.fresh k e hw
  obtain ⟨it, id, f, ha, hnode, rfl⟩ := advance_eq_ok_iff.mp hrun
  obtain ⟨id', f', hnode', hf, hgr, hid, hpacks⟩ :=
    Forest.nodeFor_spec h.forest he.fits hs ha hx he.node hright
  obtain ⟨rfl, rfl⟩ := Prod.mk.inj (Except.ok.inj (hnode.symm.trans hnode'))
  set run₁ : Run := { run with forest := f }
  set run₂ : Run := run₁.offer ⟨it, e.origin, some id⟩ with hrun₂
  have r₂ : run₂.Recorded g tokens :=
    (r.withForest hgr).offer h.ahead hf.valid (he.moved hs ha hx hid)
  have hw₂ : e ∈ run₂.offers k := offers_subset_offer run₁ _ k hw
  have hoffered : ⟨it, e.origin, some id⟩ ∈ run₂.offers run₁.position := by
    rw [hrun₂, offers_offer_position]
    exact List.mem_append_right _ (List.mem_singleton_self _)
  have harrived : Arrived f run₂.offers it e.origin run.position right := by
    by_cases ho : it.owned
    · have hnames : f.Names ⟨e.node?, right⟩ (e.item.key? e.origin k)
          ⟨k, run.position, .symbol s⟩ := hgr.names ⟨he.node, hright⟩
      exact .own hw₂ hs ha (hgr.key? hright) ho hoffered
        (hf.valid.has_of_packs hid (hpacks ho) hnames)
    · rw [Forest.nodeFor_of_not_owned ho] at hnode
      obtain ⟨rfl, -⟩ := Prod.mk.inj (Except.ok.inj hnode)
      exact .first hw₂ hs ha (hgr.key? hright) ho hoffered
  refine r₂.of_offers (fun i => rfl) rfl (.refl _) fun it' o i right' hmem => ?_
  rcases List.mem_cons.mp ((List.mem_cons.mp hmem).resolve_left nofun) with heq | hmem
  · cases heq
    exact .inr harrived
  · exact .inl (List.mem_cons_of_mem _ hmem)

theorem advanceAll {s : Symbol} {right : NodeId} : ∀ (es : List Entry) {run run' : Run},
    run.Recorded g tokens → run.Sound g tokens →
    (∀ e ∈ es, e ∈ run.offers k ∧ e.item.next? = some s ∧ Spans g tokens s k run.position) →
    run.forest.key? right = some ⟨k, run.position, .symbol s⟩ →
    run.advanceAll es right = .ok run' → run'.Recorded g tokens
  | [], run, run', r, _, _, _, hrun => by
    obtain rfl := Except.ok.inj hrun
    exact r
  | e :: es, run, run', r, h, hes, hright, hrun => by
    obtain ⟨run₁, hrun₁, hrun⟩ := advanceAll_cons_eq_ok_iff.mp hrun
    obtain ⟨hw, hs, hx⟩ := hes e List.mem_cons_self
    obtain ⟨_, hrun₁', h₁, hgr, -⟩ := advance_spec h (r.fresh k e hw).toSound hs hx hright
    obtain rfl := Except.ok.inj (hrun₁.symm.trans hrun₁')
    refine advanceAll (s := s) es (r.advance h hw hs hx hright hrun₁) h₁ (fun b hb => ?_) ?_ hrun
    · obtain ⟨hb, hsb, hxb⟩ := hes b (List.mem_cons_of_mem _ hb)
      exact ⟨offers_subset_advance hrun₁ k hb, hsb, hgr.position.symm ▸ hxb⟩
    · rw [hgr.position]
      exact hgr.forest.key? hright

theorem predict (r : run.Recorded g tokens) (h : run.Sound g tokens) {s : Symbol}
    (hr : ∀ rule ∈ g.rulesFor s,
      Fits g .literal tokens (.atStart rule) run.position run.position) :
    (run.predict g s).Recorded g tokens := by
  unfold Run.predict
  have r₁ := r.note (.predicted s run.position) (fun _ => rfl) nofun
  have h₁ := h.note (.predicted s run.position)
  have hpos : (run.note (.predicted s run.position)).position = run.position := rfl
  generalize run.note (.predicted s run.position) = run₁ at r₁ h₁ hpos
  generalize g.rulesFor s = rules at hr
  induction rules generalizing run₁ with
  | nil => exact r₁
  | cons rule rules ih =>
    have he : Entry.Fresh g tokens run₁.forest run₁.position
        ⟨.atStart rule, run₁.position, none⟩ := by
      refine Entry.fresh_atStart ?_
      rw [hpos]
      exact hr rule List.mem_cons_self
    exact ih _ (r₁.offer h₁.ahead h₁.forest.valid he) (offer_spec h₁ he.toSound).1 hpos
      fun b hb => hr b (List.mem_cons_of_mem _ hb)

/-- The node of a complete entry is found or made without an offer. -/
theorem completedNode (r : run.Recorded g tokens) (h : run.Sound g tokens) {cursor : Nat}
    {id : NodeId} (he : run.column.entries[cursor]? = some e)
    (hrun : run.completedNode cursor e = .ok (id, run')) (hgr : run.Grows run') :
    run'.Recorded g tokens := by
  unfold Run.completedNode at hrun
  split at hrun
  · obtain ⟨-, rfl⟩ := Prod.mk.inj (Except.ok.inj hrun)
    exact r
  · next hnode =>
    obtain ⟨⟨_, f⟩, -, hrun⟩ := bind_eq_ok_iff.mp hrun
    obtain ⟨-, rfl⟩ := Prod.mk.inj (Except.ok.inj hrun)
    have hd : e.item.dot = 0 := (h.entry (List.mem_of_getElem? he)).dot_eq_zero hnode
    refine r.of_offers (fun _ => rfl) ?_ hgr.forest fun _ _ _ _ => .inl
    simp only [columns, List.map_append, List.map_singleton, Column.asOffered_setNode he hd]

theorem complete (r : run.Recorded g tokens) (h : run.Sound g tokens) {cursor : Nat}
    (he : run.column.entries[cursor]? = some e) (hc : e.item.isComplete = true)
    (hrun : run.complete cursor e = .ok run') : run'.Recorded g tokens := by
  obtain ⟨id, run₁, run₂, c, hrun₁, hrun₂, hcol, hrun⟩ := complete_eq_ok_iff.mp hrun
  obtain ⟨_, _, hrun₁', h₁, hgr₁, hid, -⟩ := completedNode_spec h he hc
  obtain ⟨rfl, rfl⟩ := Prod.mk.inj (Except.ok.inj (hrun₁.symm.trans hrun₁'))
  rw [← hgr₁.position] at hid
  have hfits : Fits g .literal tokens e.item e.origin run₁.position :=
    hgr₁.position ▸ (h.entry (List.mem_of_getElem? he)).fits
  have h₂ : run₂.Sound g tokens := hrun₂ ▸ (h₁.enlist hfits hc hid).note _
  have hgr₂ : run₁.Grows run₂ := hrun₂ ▸ (grows_enlist run₁ e id).trans (grows_note _ _)
  have r₂ : run₂.Recorded g tokens :=
    hrun₂ ▸ ((r.completedNode h he hrun₁ hgr₁).enlist e id).note _ (fun _ => rfl) nofun
  rw [← hgr₂.position] at hid hfits
  have hid₂ : run₂.forest.key? id = some ⟨e.origin, run₂.position, .symbol e.item.lhs⟩ :=
    hgr₂.forest.key? hid
  obtain ⟨c', hcol'⟩ := run₂.exists_column hfits.origin_le
  obtain rfl := Except.ok.inj (hcol.symm.trans (columnAt_eq_ok hcol'))
  refine r₂.advanceAll (c.waiting e.item.lhs) h₂ (fun w hw => ?_) hid₂ hrun
  obtain ⟨hsound, hs, hx⟩ := h₂.waiting hcol' hfits hc w hw
  have hmem := List.mem_append_left c.pool (List.mem_filter.mp hw).1
  exact ⟨r₂.mem_offers hcol' hmem (hsound.fresh hs), hs, hx⟩

/-- **Working on an entry keeps the record.** -/
theorem visit (r : run.Recorded g tokens) (h : run.Sound g tokens) {cursor : Nat}
    (he : run.column.entries[cursor]? = some e)
    (hrun : run.visit g cursor e = .ok run') : run'.Recorded g tokens := by
  unfold Run.visit at hrun
  split at hrun
  · next hs => exact r.complete h he (Item.isComplete_iff.mpr hs) hrun
  · next s hs =>
    have he : e ∈ run.column.entries := List.mem_of_getElem? he
    have hne : tokens[run.position]? ≠ some s := Entry.ahead_ne (h.present.waits e he) hs
    have hrules : ∀ rule ∈ g.rulesFor s,
        Fits g .literal tokens (.atStart rule) run.position run.position :=
      fun rule hrule => .predict (h.entry he).fits hs hne hrule
    obtain ⟨h₁, hgr₁, -⟩ := predict_spec h hrules
    have r₁ := r.predict h hrules
    simp only at hrun
    split at hrun
    · next id hlook =>
      obtain ⟨hkey, hspan⟩ := h₁.lookup (hgr₁.position.symm ▸ hne) hlook
      have hw : e ∈ run.offers run.position := r.mem_offers run.getElem?_columns_position
        (List.mem_append_left _ he) ((h.entry he).fresh hs)
      have hw₁ : e ∈ (run.predict g s).offers (run.predict g s).position := by
        rw [hgr₁.position]
        exact offers_subset_predict run g s _ hw
      exact r₁.advance h₁ hw₁ hs hspan hkey hrun
    · obtain rfl := Except.ok.inj hrun
      exact r₁

/-- **Passing a token keeps the record.** -/
theorem shift (r : run.Recorded g tokens) (h : run.Sound g tokens) {token : Symbol}
    (ht : tokens[run.position]? = some token)
    (hrun : run.shift token tokens[run.position + 1]? = .ok run') : run'.Recorded g tokens := by
  obtain ⟨-, rfl⟩ | ⟨hempty, leaf, f, hleaf, hrun⟩ := shift_eq_ok_iff.mp hrun
  · exact r.stepped _
  · obtain ⟨leaf', f', hleaf', hf, hgr, hkey⟩ := h.leaf_spec ht hempty
    obtain ⟨rfl, rfl⟩ := Prod.mk.inj (Except.ok.inj (hleaf.symm.trans hleaf'))
    set next : Run := run.stepped tokens[run.position + 1]?
    have hpos : next.position = run.position + 1 := position_stepped _ _
    set ev : ParseEvent := .scanned token run.position run.column.pool.length
    have r₁ : ({ next.note ev with forest := f } : Run).Recorded g tokens :=
      ((r.stepped _).note ev (fun _ => rfl) nofun).withForest hgr
    have h₁ : ({ next.note ev with forest := f } : Run).Sound g tokens :=
      ((sound_stepped h).note ev).withForest hf hgr
    have hpool : ∀ e ∈ run.column.pool, e ∈ run.offers run.position ∧
        e.item.next? = some token ∧ Spans g tokens token run.position next.position :=
      fun e he => by
        have hmem := List.mem_append_right run.column.entries he
        have hs := (h.pool ht e he).2
        exact ⟨r.mem_offers run.getElem?_columns_position hmem
          ((h.present.entry e hmem).fresh hs), hs, .inl ⟨ht, hpos⟩⟩
    rw [← hpos] at hkey
    exact r₁.advanceAll run.column.pool h₁ hpool hkey hrun

end Recorded

theorem recorded_start (g : Grammar) (tokens : List Symbol) :
    (start g tokens).Recorded g tokens := by
  set blank : Run := ⟨tokens.head?, [], Column.empty, [], Forest.empty, []⟩
  have hf : Forest.empty.Sound g tokens := Forest.sound_empty
  have r : blank.Recorded g tokens := by
    refine ⟨nofun, fun i c hc => ?_, fun _ _ => rfl, nofun⟩
    obtain rfl : c = Column.empty := List.mem_singleton.mp (List.mem_of_getElem? hc)
    rfl
  exact r.offer List.head?_eq_getElem? hf.valid (Entry.fresh_atStart .start)

end Run

/-! ### What the stages of a parse record -/

/-- **Every stage of a parse keeps the record.** -/
theorem Stage.Reached.recorded {s : Stage} (h : Stage.Reached g tokens pos s) :
    s.run.Recorded g tokens := by
  induction h with
  | first => exact Run.recorded_start g tokens
  | step h hs ih =>
    have hsound := h.kept.passed.sound
    cases hs with
    | visit he hrun => exact ih.visit hsound he hrun
    | shift _ ht hrun => exact ih.shift hsound ht hrun

theorem Stage.Reached.finished {s : Stage} (h : Stage.Reached g tokens pos s)
    (hdone : s.Done tokens) : s.run.Finished g tokens :=
  ⟨h.kept.passed, h.kept.closed hdone.1, hdone.2⟩

namespace Run

/-- In the end an entry with the dot at the start has a node just when it is complete. -/
theorem Finished.keeps {run : Run} (h : run.Finished g tokens) {c : Column}
    (hc : run.columns[pos]? = some c) : ∀ e ∈ c.entries, e.item.dot = 0 →
      if e.item.isComplete then e.HasNode run.forest pos else e.node? = none := by
  intro e he hd
  have hsound := (h.passed.sound.column pos c hc).entry e (List.mem_append_left _ he)
  cases hs : e.item.next? with
  | none =>
    have hcomplete := Item.isComplete_iff.mpr hs
    obtain ⟨id, hid⟩ := (h.settled hc).named e he hcomplete
    rw [if_pos hcomplete]
    exact hsound.hasNode hid
  | some s =>
    rw [if_neg (by simp [Item.isComplete_iff, hs])]
    exact (hsound.fresh hs).bare hd

theorem mem_events_result_advanced {run : Run} {it : Item} {o i : Nat} {right : NodeId} :
    .advanced it o i right ∈ (run.result g).events ↔ .advanced it o i right ∈ run.events := by
  simp only [result, List.mem_reverse, List.mem_cons]
  split <;> simp

theorem offers_result (run : Run) (g : Grammar) (i : Nat) :
    (run.result g).offers i = run.offers i := by
  have hverdict : (if (run.column.root? g.start).isSome then ParseEvent.accepted run.forest.size
      else .rejected).offerTo? i = none := by
    split <;> rfl
  simp [Parse.offers, offers, result, List.filterMap_reverse, hverdict]

end Run

/-- **There is one node for each item.** Whatever a parse offers to a column carries the node for
its item, its origin and the position, so two offers of one item from one origin carry one node, and
a column as its entries came in is what its offers make of it when nodes tell entries apart as well.
In the end an entry with the dot at the start has a node just when it is complete, the node of its
left-hand side over no text. No move of a dot is lost with an offer that is turned away: the item
stands where it arrives with a node that has the family of the move, and every way to build a node
that the tokens allow is a family of it. -/
theorem Grammar.parse_one_node (g : Grammar) (tokens : List Symbol) :
    ∃ p, g.parse tokens = .ok p ∧
      (∀ i, ∀ e ∈ p.offers i, e.Carries p.forest i) ∧
      (∀ i, ∀ a ∈ p.offers i, ∀ b ∈ p.offers i, a.item = b.item → a.origin = b.origin →
        a.node? = b.node?) ∧
      (∀ (i : Nat) (c : Column), p.columns[i]? = some c →
        c.asOffered = .ofOffers tokens[i]? (p.offers i) ∧
        ∀ e ∈ c.entries, e.item.dot = 0 →
          if e.item.isComplete then e.HasNode p.forest i else e.node? = none) ∧
      (∀ i, p.columns.length ≤ i → p.offers i = []) ∧
      (∀ it o i right, .advanced it o i right ∈ p.events →
        Arrived p.forest p.offers it o i right) ∧
      (tokens ≠ [] → ∀ key left? right, Grown g tokens key left? right →
        p.forest.Packs key left? right) := by
  obtain ⟨p, hp, hreached⟩ := g.parse_reaches tokens
  refine ⟨p, hp, ?_⟩
  by_cases hne : tokens = []
  · subst hne
    obtain rfl : Parse.mk [] Forest.empty none [.emptyInput] = p := Except.ok.inj hp
    simp [Parse.offers, ParseEvent.offerTo?]
  · obtain ⟨k, s, hs, hdone, rfl⟩ := hreached hne
    have hrec := hs.recorded
    have hfinished := hs.finished hdone
    have hvalid := hfinished.passed.sound.forest.valid
    have hoffers : (s.run.result g).offers = s.run.offers := funext (s.run.offers_result g)
    rw [hoffers]
    refine ⟨fun i e he => (hrec.fresh i e he).carries, ?_, fun i c hc => ⟨hrec.column i c hc, ?_⟩,
      ?_, ?_, ?_⟩
    · intro i a ha b hb hitem horigin
      rw [(hrec.fresh i a ha).eq_of_slot hvalid (hrec.fresh i b hb) (Prod.ext hitem horigin)]
    · exact hfinished.keeps hc
    · intro i hi
      have hlen : s.run.columns.length ≤ i := hi
      rw [Run.length_columns] at hlen
      exact hrec.beyond i hlen
    · intro it o i right hev
      exact hrec.arrived it o i right (Run.mem_events_result_advanced.mp hev)
    · intro _ key left? right hgrown
      exact hfinished.packs hgrown

/-- With `S → S S` and `S → b` the last of three `b`s offers the complete `S S` from the first one
twice, once for each place where it can be split, and the column takes it in once. -/
example :
    let g := Grammar.ofRules "S" [⟨"S", ["S", "S"]⟩, ⟨"S", ["b"]⟩]
    let isWhole (e : Entry) : Bool := e.item = .dotted "S" ["S", "S"] [] ∧ e.origin = 0
    (g.parse ["b", "b", "b"]).toOption.map (fun p => ((p.offers 3).countP isWhole,
      p.columns[3]?.map (·.entries.countP isWhole))) = some (2, some 1) := by
  decide +kernel

end Parsing
