/-
# Stores and their forests

The nodes of a store and its index tell the same twice: the index gives the name of each key, and
of no other. No call breaks this, since a key is entered only when its node has been created and
was not there before.

What a call comes to is told once (`Store.Serves`). It is refused only when its span is reversed or
its family does not tile, which is found out before anything has changed; so a call that is refused
leaves the store as it was, and a store answers as its forest does without an index.

Key definitions: `NodeKey.Tiled`, `Forest.Tiles`, `Forest.Refuses`, `Store.Indexed`,
`Store.Serves`.
Key theorems: `Forest.addFamily_of_tiles`, `Forest.tiles_of_addFamily`, `Store.run_addFamily`,
`Store.serves`, `Store.Serves.refuses_iff`, `Store.Serves.answer_eq`.
-/
import Parsing.Forest.Store
import Parsing.Proofs.Forest.Valid

namespace Parsing

/-- Whether the children known by the given keys, the left one perhaps absent, tile the span of a
node. -/
def NodeKey.Tiled (node : NodeKey) (left? : Option NodeKey) (right : NodeKey) : Prop :=
  right.stop = node.stop ∧
    match left? with
    | some left => left.start = node.start ∧ left.stop = right.start ∧ right.label ≠ .epsilon
    | none => right.start = node.start

namespace Forest

/-- Whether the forest has the node of the name and the children of the family, and these tile the
span of the node. -/
def Tiles (f : Forest) (id : NodeId) (fam : Family) : Prop :=
  ∃ node left? right, f.key? id = some node ∧ f.Names fam left? right ∧ node.Tiled left? right

/-- Whether the node of the name has the family. -/
def Has (f : Forest) (id : NodeId) (fam : Family) : Prop :=
  ∃ n, f.nodes[id]? = some n ∧ fam ∈ n.families

/-- Whether the forest is to refuse the call, as the span is reversed or the family does not
tile. -/
def Refuses (f : Forest) : Call → Prop
  | .ensure key => key.stop < key.start
  | .find _ => False
  | .addFamily id fam => ¬ f.Tiles id fam

instance (f : Forest) (id : NodeId) (fam : Family) : Decidable (f.Has id fam) :=
  inferInstanceAs (Decidable (∃ n, f.nodes[id]? = some n ∧ fam ∈ n.families))

variable {f : Forest} {id : NodeId} {key : NodeKey} {fam : Family}

/-! ### Calls to a forest -/

theorem Valid.find?_eq_some_iff (hf : f.Valid) : f.find? key = some id ↔ f.key? id = some key := by
  refine ⟨find?_eq_some, fun hid => ?_⟩
  cases hfind : f.find? key with
  | none =>
    obtain ⟨n, hn, hk⟩ := mem_of_key? hid
    exact absurd hk (find?_eq_none hfind n hn)
  | some i => exact congrArg some (hf.key_inj (find?_eq_some hfind) hid)

theorem Valid.tiles (hf : f.Valid) {n : Node} (hn : f.nodes[id]? = some n)
    (hfam : fam ∈ n.families) : f.Tiles id fam := by
  obtain ⟨left?, right, hnames, hc⟩ := hf.tiled n (List.mem_of_getElem? hn) fam hfam
  exact ⟨n.key, left?, right, key?_eq_some_iff.mpr ⟨n, hn, rfl⟩, hnames,
    Family.check_eq_ok_iff.mp hc⟩

theorem tiles_of_addFamily {r : Bool × Forest} (h : f.addFamily id fam = .ok r) :
    f.Tiles id fam := by
  unfold addFamily at h
  obtain ⟨n, hn, h⟩ := bind_eq_ok_iff.mp h
  obtain ⟨m, hm, h⟩ := bind_eq_ok_iff.mp h
  obtain ⟨left?, hl, h⟩ := bind_eq_ok_iff.mp h
  obtain ⟨_, hc, -⟩ := bind_eq_ok_iff.mp h
  have hid : f.key? id = some n.key := key?_eq_some_iff.mpr ⟨n, node_eq_ok_iff.mp hn, rfl⟩
  have hright : f.key? fam.right = some m.key :=
    key?_eq_some_iff.mpr ⟨m, node_eq_ok_iff.mp hm, rfl⟩
  exact ⟨n.key, left?, m.key, hid, ⟨childKey?_eq_ok_iff.mp hl, hright⟩,
    Family.check_eq_ok_iff.mp hc⟩

theorem addFamily_of_tiles (h : f.Tiles id fam) : f.addFamily id fam =
    if f.Has id fam then .ok (false, f) else .ok (true, f.attach id fam) := by
  obtain ⟨key, left?, right, hid, hnames, hc⟩ := h
  obtain ⟨n, hn, rfl⟩ := key?_eq_some_iff.mp hid
  have hhas : f.Has id fam ↔ fam ∈ n.families := by simp [Has, hn]
  rw [addFamily_eq hn hnames (Family.check_eq_ok_iff.mpr hc)]
  simp only [hhas]

theorem key?_push (f : Forest) (key : NodeKey) (i : NodeId) :
    (f.push key).key? i = if i = f.nodes.length then some key else f.key? i := by
  rcases Nat.lt_trichotomy i f.nodes.length with h | h | h
  · rw [if_neg (Nat.ne_of_lt h), key?, push, List.getElem?_append_left h, key?]
  · subst h
    simp [key?, push]
  · rw [if_neg (Nat.ne_of_gt h), key?, key?, push, List.getElem?_eq_none, List.getElem?_eq_none]
    · exact Nat.le_of_lt h
    · rw [List.length_append]
      exact h

theorem key?_attach (f : Forest) (id : NodeId) (fam : Family) (i : NodeId) :
    (f.attach id fam).key? i = f.key? i := by
  have h : ((f.attach id fam).nodes.map (·.key))[i]? = (f.nodes.map (·.key))[i]? := by
    rw [keys_attach]
  rwa [List.getElem?_map, List.getElem?_map] at h

end Forest

namespace Store

variable {s : Store} {id : NodeId} {key : NodeKey} {fam : Family}

/-! ### Runs of operations -/

section Run

variable {α β : Type} {op : Op α} {k : α → Op β} {s s' : Store} {a : α} {e : Fault}

theorem run_bind_ok (h : run op s = (.ok a, s')) : run (op >>= k) s = run (k a) s' := by
  have hop : op.run.run s = (.ok a, s') := h
  simp only [run, ExceptT.run_bind, StateT.run_bind, hop]
  rfl

theorem run_bind_error (h : run op s = (.error e, s')) : run (op >>= k) s = (.error e, s') := by
  have hop : op.run.run s = (.error e, s') := h
  simp only [run, ExceptT.run_bind, StateT.run_bind, hop]
  rfl

end Run

theorem run_get (s : Store) : run get s = (.ok s, s) := rfl

theorem run_node (id : NodeId) (s : Store) : run (node id) s = (s.forest.node id, s) := by
  unfold node Forest.node forest
  rw [run_bind_ok (run_get s)]
  cases h : s.nodes[id]? <;> rfl

theorem run_childKey? (id? : Option NodeId) (s : Store) :
    run (childKey? id?) s = (s.forest.childKey? id?, s) := by
  cases id? with
  | none => rfl
  | some id =>
    have hnode := run_node id s
    unfold childKey?
    dsimp only [Forest.childKey?]
    cases hn : s.forest.node id with
    | error e =>
      rw [run_bind_error (hn ▸ hnode)]
      rfl
    | ok n =>
      rw [run_bind_ok (hn ▸ hnode)]
      rfl

theorem run_find? (key : NodeKey) (s : Store) :
    run (find? key) s = (.ok (s.index.lookup key), s) := rfl

/-- **Adding a family does to a store what it does to its forest**, and nothing to the index. -/
theorem run_addFamily (id : NodeId) (fam : Family) (s : Store) :
    run (addFamily id fam) s = match s.forest.addFamily id fam with
      | .ok (b, f) => (.ok b, ⟨f.nodes, s.index⟩)
      | .error e => (.error e, s) := by
  have hnode := run_node id s
  have hright := run_node fam.right s
  have hleft := run_childKey? fam.left? s
  unfold addFamily checkFamily Forest.addFamily
  simp only [bind_assoc]
  -- all faults come from reading, before the one change
  cases hn : s.forest.node id with
  | error e =>
    rw [run_bind_error (hn ▸ hnode)]
    rfl
  | ok n =>
    rw [run_bind_ok (hn ▸ hnode)]
    cases hm : s.forest.node fam.right with
    | error e =>
      rw [run_bind_error (hm ▸ hright)]
      rfl
    | ok m =>
      rw [run_bind_ok (hm ▸ hright)]
      cases hl : s.forest.childKey? fam.left? with
      | error e =>
        rw [run_bind_error (hl ▸ hleft)]
        rfl
      | ok left? =>
        rw [run_bind_ok (hl ▸ hleft)]
        cases hc : Family.check n.key left? m.key with
        | error e =>
          simp only [bind, Except.bind, hc]
          rfl
        | ok =>
          have hpass : run (return ()) s = (.ok (), s) := rfl
          rw [run_bind_ok hpass, run_bind_ok (hn ▸ hnode)]
          simp only [bind, Except.bind, hc]
          by_cases h : fam ∈ n.families
          · rw [if_pos h, if_pos h]
            rfl
          · rw [if_neg h, if_neg h]
            rfl

/-! ### Keys and names -/

/-- Whether the index gives the name of each key, and of no other. -/
def Indexed (s : Store) : Prop :=
  ∀ (key : NodeKey) (id : NodeId), s.index.lookup key = some id ↔ s.forest.key? id = some key

/-- The store with one node more. -/
def push (s : Store) (key : NodeKey) : Store :=
  ⟨(s.forest.push key).nodes, (key, s.nodes.length) :: s.index⟩

/-- The store with one family more at a node. -/
def attach (s : Store) (id : NodeId) (fam : Family) : Store :=
  ⟨(s.forest.attach id fam).nodes, s.index⟩

/-- A key that the index has not is entered with its node. -/
theorem run_ensure (key : NodeKey) (s : Store) : run (ensure key) s =
    if key.stop < key.start then (.error (.reversedSpan key.start key.stop), s)
    else match s.index.lookup key with
      | some id => (.ok id, s)
      | none => (.ok s.nodes.length, s.push key) := by
  unfold ensure
  by_cases h : key.stop < key.start
  · rw [if_pos h, if_pos h]
    rfl
  · rw [if_neg h, if_neg h]
    dsimp only
    rw [run_bind_ok (run_get s)]
    cases s.index.lookup key <;> rfl

theorem Indexed.lookup_eq_none (hs : s.Indexed) (h : s.index.lookup key = none) :
    ∀ id, s.forest.key? id ≠ some key := fun id hid =>
  nomatch h.symm.trans ((hs key id).mpr hid)

theorem Indexed.push (hs : s.Indexed) (hnew : ∀ id, s.forest.key? id ≠ some key) :
    (s.push key).Indexed := by
  intro k i
  have hlookup : (s.push key).index.lookup k =
      if k = key then some s.nodes.length else s.index.lookup k := by
    rw [Store.push, List.lookup_cons]
    by_cases h : k = key
    · rw [if_pos h, beq_iff_eq.mpr h]
    · rw [if_neg h, beq_eq_false_iff_ne.mpr h]
  have hkey : (s.push key).forest.key? i =
      if i = s.nodes.length then some key else s.forest.key? i := Forest.key?_push s.forest key i
  have hbeyond : s.forest.key? s.nodes.length = none := by simp [Forest.key?, forest]
  rw [hlookup, hkey]
  by_cases hk : k = key
  · subst hk
    by_cases hi : i = s.nodes.length
    · simp [hi]
    · simp [hi, hnew i, Ne.symm hi]
  · by_cases hi : i = s.nodes.length
    · subst hi
      simp [hk, Ne.symm hk, hs k, hbeyond]
    · simp [hk, hi, hs k i]

theorem Indexed.attach (hs : s.Indexed) (id : NodeId) (fam : Family) :
    (s.attach id fam).Indexed := by
  intro k i
  have hkey : (s.attach id fam).forest.key? i = s.forest.key? i :=
    Forest.key?_attach s.forest id fam i
  rw [hkey]
  exact hs k i

/-! ### Calls -/

/-- What a call to a store comes to, and the store afterwards: a node is found or created, unless
its span is reversed; a node is looked for by its key; a family is added if the node does not have
it, unless it does not tile. -/
inductive Serves (s : Store) : Forest.Call → Except Fault Forest.Answer → Store → Prop
  | known {key : NodeKey} {id : NodeId} (hspan : key.start ≤ key.stop)
      (hid : s.forest.key? id = some key) : Serves s (.ensure key) (.ok (.node id)) s
  | created {key : NodeKey} (hspan : key.start ≤ key.stop)
      (hnew : ∀ id, s.forest.key? id ≠ some key) :
      Serves s (.ensure key) (.ok (.node s.nodes.length)) (s.push key)
  | reversed {key : NodeKey} (hspan : key.stop < key.start) :
      Serves s (.ensure key) (.error (.reversedSpan key.start key.stop)) s
  | found {key : NodeKey} {id? : Option NodeId}
      (hid : ∀ id, id? = some id ↔ s.forest.key? id = some key) :
      Serves s (.find key) (.ok (.found id?)) s
  | present {id : NodeId} {fam : Family} (htiles : s.forest.Tiles id fam)
      (hhas : s.forest.Has id fam) : Serves s (.addFamily id fam) (.ok (.changed false)) s
  | added {id : NodeId} {fam : Family} (htiles : s.forest.Tiles id fam)
      (hnew : ¬ s.forest.Has id fam) :
      Serves s (.addFamily id fam) (.ok (.changed true)) (s.attach id fam)
  | refused {id : NodeId} {fam : Family} {e : Fault} (htiles : ¬ s.forest.Tiles id fam)
      (hadd : s.forest.addFamily id fam = .error e) : Serves s (.addFamily id fam) (.error e) s

/-- **What a call comes to**, where the index gives the names of keys. -/
theorem serves (hs : s.Indexed) (c : Forest.Call) :
    s.Serves c (run (call c) s).1 (run (call c) s).2 := by
  cases c with
  | ensure key =>
    have hrun := run_ensure key s
    unfold call
    by_cases hspan : key.stop < key.start
    · rw [if_pos hspan] at hrun
      rw [run_bind_error hrun]
      exact .reversed hspan
    · rw [if_neg hspan] at hrun
      cases hfind : s.index.lookup key with
      | some id =>
        rw [hfind] at hrun
        rw [run_bind_ok hrun]
        exact .known (Nat.le_of_not_lt hspan) ((hs key id).mp hfind)
      | none =>
        rw [hfind] at hrun
        rw [run_bind_ok hrun]
        exact .created (Nat.le_of_not_lt hspan) (hs.lookup_eq_none hfind)
  | find key =>
    unfold call
    rw [run_bind_ok (run_find? key s)]
    exact .found (hs key)
  | addFamily id fam =>
    have hrun := run_addFamily id fam s
    unfold call
    by_cases htiles : s.forest.Tiles id fam
    · rw [Forest.addFamily_of_tiles htiles] at hrun
      by_cases hhas : s.forest.Has id fam
      · rw [if_pos hhas] at hrun
        rw [run_bind_ok hrun]
        exact .present htiles hhas
      · rw [if_neg hhas] at hrun
        rw [run_bind_ok hrun]
        exact .added htiles hhas
    · cases hadd : s.forest.addFamily id fam with
      | ok r => exact absurd (Forest.tiles_of_addFamily hadd) htiles
      | error e =>
        rw [hadd] at hrun
        rw [run_bind_error hrun]
        exact .refused htiles hadd

namespace Serves

variable {s' : Store} {c : Forest.Call} {a : Except Fault Forest.Answer}

theorem indexed (h : s.Serves c a s') (hs : s.Indexed) : s'.Indexed := by
  cases h with
  | known | reversed | found | present | refused => exact hs
  | created hspan hnew => exact hs.push hnew
  | added htiles hnew => exact hs.attach _ _

theorem valid (h : s.Serves c a s') (hs : s.forest.Valid) : s'.forest.Valid := by
  cases h with
  | known | reversed | found | present | refused => exact hs
  | @created key hspan hnew =>
    refine Forest.valid_push hs hspan fun n hn hkey => ?_
    obtain ⟨id, hid⟩ := List.mem_iff_getElem?.mp hn
    exact hnew id (Forest.key?_eq_some_iff.mpr ⟨n, hid, hkey⟩)
  | added htiles hnew =>
    obtain ⟨key, left?, right, hid, hnames, hc⟩ := htiles
    obtain ⟨n, hn, rfl⟩ := Forest.key?_eq_some_iff.mp hid
    exact Forest.valid_attach hs hn hnames (Family.check_eq_ok_iff.mpr hc)
      fun hmem => hnew ⟨n, hn, hmem⟩

theorem grows (h : s.Serves c a s') : s.forest.Grows s'.forest := by
  cases h with
  | known | reversed | found | present | refused => exact .refl _
  | created => exact Forest.grows_push _ _
  | added => exact Forest.grows_attach _ _ _

theorem refuses_iff (h : s.Serves c a s') : (∃ e, a = .error e) ↔ s.forest.Refuses c := by
  cases h with
  | known hspan | created hspan => simp [Forest.Refuses, hspan]
  | reversed hspan => simp [Forest.Refuses, hspan]
  | found => simp [Forest.Refuses]
  | present htiles | added htiles | refused htiles => simp [Forest.Refuses, htiles]

theorem eq_of_refuses (h : s.Serves c a s') (hc : s.forest.Refuses c) : s' = s := by
  cases h with
  | known | reversed | found | present | refused => rfl
  | created hspan => exact absurd hc (Nat.not_lt_of_le hspan)
  | added htiles => exact absurd htiles hc

/-- **A store answers as its forest does.** -/
theorem answer_eq (h : s.Serves c a s') (hs : s.forest.Valid) :
    s.forest.answer c = a.map fun answer => (answer, s'.forest) := by
  cases h with
  | known hspan hid =>
    simp [Forest.answer, Forest.ensure, hspan, hs.find?_eq_some_iff.mpr hid, Except.map]
  | @created key hspan hnew =>
    have hfind : s.forest.find? key = none :=
      Option.eq_none_iff_forall_ne_some.mpr fun id hid =>
        hnew id (hs.find?_eq_some_iff.mp hid)
    have hensure : s.forest.ensure key = .ok (s.nodes.length, s.forest.push key) := by
      rw [Forest.ensure, if_pos hspan, hfind]
      rfl
    rw [Forest.answer, hensure]
    rfl
  | reversed hspan =>
    simp [Forest.answer, Forest.ensure, Nat.not_le_of_lt hspan, Except.map]
  | @found key id? hid =>
    have hfind : s.forest.find? key = id? :=
      Option.ext fun id => hs.find?_eq_some_iff.trans (hid id).symm
    simp [Forest.answer, hfind, Except.map]
  | present htiles hhas =>
    rw [Forest.answer, Forest.addFamily_of_tiles htiles, if_pos hhas]
    rfl
  | added htiles hnew =>
    rw [Forest.answer, Forest.addFamily_of_tiles htiles, if_neg hnew]
    rfl
  | refused htiles hadd =>
    rw [Forest.answer, hadd]
    rfl

theorem next_eq (h : s.Serves c a s') (hs : s.forest.Valid) : s.forest.next c = s'.forest := by
  unfold Forest.next
  rw [h.answer_eq hs]
  cases a with
  | ok answer => rfl
  | error e =>
    rw [h.eq_of_refuses (h.refuses_iff.mp ⟨e, rfl⟩)]
    rfl

end Serves

end Store

end Parsing
