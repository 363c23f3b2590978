/-
# Valid forests

In a valid forest no two nodes have one key, no node ends before it starts, and the
families of a node are distinct and tile its span. Creating a node and adding a
family keep a forest valid, never fail on spans that are in order, and only make
the forest grow: a node keeps its name and its key, and its families stay in their
places. So what is said of nodes and families by their keys stays true while the
forest grows.

Key definitions: `Forest.key?`, `Forest.Names`, `Forest.Packs`, `Forest.Valid`,
`Forest.Grows`.
Key theorems: `Forest.Valid.key_inj`, `Forest.ensure_spec`, `Forest.addFamily_spec`.
-/
import Mathlib.Data.List.Nodup
import Mathlib.Data.Option.Basic
import Parsing.Forest

namespace Parsing

theorem bind_eq_ok_iff {ε α β : Type} {x : Except ε α} {f : α → Except ε β} {b : β} :
    x >>= f = .ok b ↔ ∃ a, x = .ok a ∧ f a = .ok b := by
  cases x <;> simp [bind, Except.bind]

theorem Family.check_eq_ok_iff {node : NodeKey} {left? : Option NodeKey} {right : NodeKey} :
    Family.check node left? right = .ok () ↔ right.stop = node.stop ∧
      match left? with
      | some left => left.start = node.start ∧ left.stop = right.start ∧ right.label ≠ .epsilon
      | none => right.start = node.start := by
  unfold Family.check
  by_cases hstop : right.stop = node.stop
  · cases left? with
    | none => by_cases hstart : right.start = node.start <;> simp [hstop, hstart]
    | some left =>
      by_cases h₁ : left.start = node.start <;> by_cases h₂ : left.stop = right.start <;>
        by_cases h₃ : right.label = .epsilon <;> simp [hstop, h₁, h₂, h₃]
  · cases left? <;> simp [hstop]

namespace Forest

/-- The key of the node of the given name. -/
def key? (f : Forest) (id : NodeId) : Option NodeKey := f.nodes[id]?.map (·.key)

/-- Whether the children of a family are known by the given keys. -/
def Names (f : Forest) (fam : Family) (left? : Option NodeKey) (right : NodeKey) : Prop :=
  fam.left?.map f.key? = left?.map some ∧ f.key? fam.right = some right

/-- Whether the node known by `key` has a family of children known by the given keys. -/
def Packs (f : Forest) (key : NodeKey) (left? : Option NodeKey) (right : NodeKey) : Prop :=
  ∃ n ∈ f.nodes, n.key = key ∧ ∃ fam ∈ n.families, f.Names fam left? right

/-- What creating nodes and adding families keep. -/
structure Valid (f : Forest) : Prop where
  distinct : (f.nodes.map (·.key)).Nodup
  forward : ∀ n ∈ f.nodes, n.key.start ≤ n.key.stop
  once : ∀ n ∈ f.nodes, n.families.Nodup
  tiled : ∀ n ∈ f.nodes, ∀ fam ∈ n.families,
    ∃ left? right, f.Names fam left? right ∧ Family.check n.key left? right = .ok ()

/-- Whether `f'` has the nodes of `f` in their places, with their families and perhaps more. -/
def Grows (f f' : Forest) : Prop :=
  ∀ (id : NodeId) (n : Node), f.nodes[id]? = some n →
    ∃ n', f'.nodes[id]? = some n' ∧ n'.key = n.key ∧ n.families <+: n'.families

variable {f f' f'' : Forest} {id : NodeId} {key right : NodeKey} {left? : Option NodeKey}
  {fam : Family}

/-! ### Keys -/

theorem key?_eq_some_iff : f.key? id = some key ↔ ∃ n, f.nodes[id]? = some n ∧ n.key = key := by
  simp [key?]

theorem mem_of_key? (h : f.key? id = some key) : ∃ n ∈ f.nodes, n.key = key := by
  obtain ⟨n, hn, rfl⟩ := key?_eq_some_iff.mp h
  exact ⟨n, List.mem_of_getElem? hn, rfl⟩

theorem Valid.key_inj (hf : f.Valid) {a b : NodeId} (ha : f.key? a = some key)
    (hb : f.key? b = some key) : a = b := by
  obtain ⟨n, hn, -⟩ := key?_eq_some_iff.mp ha
  have hlt : a < (f.nodes.map (·.key)).length := by
    simpa using (List.getElem?_eq_some_iff.mp hn).1
  refine (List.getElem?_inj hlt hf.distinct).mp ?_
  rw [List.getElem?_map, List.getElem?_map]
  exact ha.trans hb.symm

theorem Valid.node_inj (hf : f.Valid) {m n : Node} (hm : m ∈ f.nodes) (hn : n ∈ f.nodes)
    (h : m.key = n.key) : m = n :=
  List.inj_on_of_nodup_map hf.distinct hm hn h

theorem names_none (h : fam.left? = none) (hr : f.key? fam.right = some right) :
    f.Names fam none right := ⟨by rw [h, Option.map_none, Option.map_none], hr⟩

theorem names_some {a : NodeId} {left : NodeKey} (h : fam.left? = some a)
    (ha : f.key? a = some left) (hr : f.key? fam.right = some right) :
    f.Names fam (some left) right :=
  ⟨by rw [h, Option.map_some, Option.map_some, ha], hr⟩

theorem Names.unique {l? : Option NodeKey} {r : NodeKey} (h : f.Names fam left? right)
    (h' : f.Names fam l? r) : left? = l? ∧ right = r := by
  refine ⟨?_, Option.some.inj (h.2.symm.trans h'.2)⟩
  have := h.1.symm.trans h'.1
  exact Option.map_injective (Option.some_injective _) this

theorem Valid.family_inj (hf : f.Valid) {fam' : Family} (h : f.Names fam left? right)
    (h' : f.Names fam' left? right) : fam = fam' := by
  obtain ⟨l, r⟩ := fam
  obtain ⟨l', r'⟩ := fam'
  obtain rfl : r = r' := hf.key_inj h.2 h'.2
  have hl : l.map f.key? = left?.map some := h.1
  have hl' : l'.map f.key? = left?.map some := h'.1
  cases left? with
  | none =>
    rw [Option.map_none, Option.map_eq_none_iff] at hl hl'
    rw [hl, hl']
  | some left =>
    obtain ⟨a, rfl, ha⟩ := Option.map_eq_some_iff.mp hl
    obtain ⟨b, rfl, hb⟩ := Option.map_eq_some_iff.mp hl'
    rw [hf.key_inj ha hb]

/-! ### Growth -/

theorem Grows.refl (f : Forest) : f.Grows f := fun _ n hn => ⟨n, hn, rfl, List.prefix_refl _⟩

theorem Grows.trans (h₁ : f.Grows f') (h₂ : f'.Grows f'') : f.Grows f'' := by
  intro id n hn
  obtain ⟨n', hn', hk', hp'⟩ := h₁ id n hn
  obtain ⟨n'', hn'', hk'', hp''⟩ := h₂ id n' hn'
  exact ⟨n'', hn'', hk''.trans hk', hp'.trans hp''⟩

theorem Grows.key? (h : f.Grows f') (hk : f.key? id = some key) : f'.key? id = some key := by
  obtain ⟨n, hn, rfl⟩ := key?_eq_some_iff.mp hk
  obtain ⟨n', hn', hk', -⟩ := h id n hn
  exact key?_eq_some_iff.mpr ⟨n', hn', hk'⟩

theorem Grows.names (h : f.Grows f') (hn : f.Names fam left? right) :
    f'.Names fam left? right := by
  refine ⟨?_, h.key? hn.2⟩
  have hl := hn.1
  cases left? with
  | none => simpa using hl
  | some left =>
    obtain ⟨a, ha, hk⟩ := Option.map_eq_some_iff.mp hl
    rw [ha]
    exact congrArg some (h.key? hk)

theorem Grows.packs (h : f.Grows f') (hp : f.Packs key left? right) : f'.Packs key left? right := by
  obtain ⟨n, hn, rfl, fam, hfam, hnames⟩ := hp
  obtain ⟨id, hid⟩ := List.mem_iff_getElem?.mp hn
  obtain ⟨n', hn', hk', hp'⟩ := h id n hid
  exact ⟨n', List.mem_of_getElem? hn', hk', fam, hp'.subset hfam, h.names hnames⟩

/-- A node keeps its place while the forest grows. -/
theorem Grows.getElem?_of_mem (h : f.Grows f') (hv : f'.Valid) {n n' : Node} (hn : n ∈ f.nodes)
    (hn' : f'.nodes[id]? = some n') (hk : n'.key = n.key) : f.nodes[id]? = some n := by
  obtain ⟨i, hi⟩ := List.mem_iff_getElem?.mp hn
  have hkey : f'.key? i = some n.key := h.key? (key?_eq_some_iff.mpr ⟨n, hi, rfl⟩)
  obtain rfl : id = i := hv.key_inj (key?_eq_some_iff.mpr ⟨n', hn', hk⟩) hkey
  exact hi

/-! ### Creating a node -/

theorem find?_eq_some (h : f.find? key = some id) : f.key? id = some key := by
  obtain ⟨hlt, hk, -⟩ := List.findIdx?_eq_some_iff_getElem.mp h
  exact key?_eq_some_iff.mpr ⟨_, List.getElem?_eq_getElem hlt, by simpa using hk⟩

theorem find?_eq_none (h : f.find? key = none) : ∀ n ∈ f.nodes, n.key ≠ key := by
  simpa [find?, List.findIdx?_eq_none_iff] using h

/-- A node more at the end. -/
def push (f : Forest) (key : NodeKey) : Forest := ⟨f.nodes ++ [⟨key, []⟩]⟩

theorem grows_push (f : Forest) (key : NodeKey) : f.Grows (f.push key) := by
  intro id n hn
  have hlt := (List.getElem?_eq_some_iff.mp hn).1
  exact ⟨n, by rw [← hn]; exact List.getElem?_append_left hlt, rfl, List.prefix_refl _⟩

theorem valid_push (hf : f.Valid) (hk : key.start ≤ key.stop) (hnew : ∀ n ∈ f.nodes, n.key ≠ key) :
    (f.push key).Valid where
  distinct := by
    simp only [push, List.map_append, List.map_cons, List.map_nil]
    refine List.nodup_append.mpr ⟨hf.distinct, by simp, ?_⟩
    intro a ha b hb e
    obtain ⟨n, hn, rfl⟩ := List.mem_map.mp ha
    exact hnew n hn (e.trans (List.mem_singleton.mp hb))
  forward n hn := by
    rcases List.mem_append.mp hn with hn | hn
    · exact hf.forward n hn
    · rw [List.mem_singleton.mp hn]; exact hk
  once n hn := by
    rcases List.mem_append.mp hn with hn | hn
    · exact hf.once n hn
    · rw [List.mem_singleton.mp hn]; exact List.nodup_nil
  tiled n hn fam hfam := by
    rcases List.mem_append.mp hn with hn | hn
    · obtain ⟨l, r, hnames, hc⟩ := hf.tiled n hn fam hfam
      exact ⟨l, r, (grows_push f key).names hnames, hc⟩
    · rw [List.mem_singleton.mp hn] at hfam
      cases hfam

/-- **A node is found or created**, and nothing else changes. -/
theorem ensure_spec (hf : f.Valid) (hk : key.start ≤ key.stop) :
    ∃ id f', f.ensure key = .ok (id, f') ∧ f'.Valid ∧ f.Grows f' ∧ f'.key? id = some key ∧
      ∀ n ∈ f'.nodes, n ∈ f.nodes ∨ n = ⟨key, []⟩ := by
  unfold ensure
  rw [if_pos hk]
  cases hfind : f.find? key with
  | some id => exact ⟨id, f, rfl, hf, .refl f, find?_eq_some hfind, fun n hn => .inl hn⟩
  | none =>
    refine ⟨_, f.push key, rfl, valid_push hf hk (find?_eq_none hfind), grows_push f key, ?_, ?_⟩
    · simp [key?, push]
    · intro n hn
      simpa [push] using hn

/-! ### Adding a family -/

theorem node_eq_ok_iff {n : Node} : f.node id = .ok n ↔ f.nodes[id]? = some n := by
  unfold node
  cases f.nodes[id]? <;> simp

theorem childKey?_eq_ok_iff :
    f.childKey? fam.left? = .ok left? ↔ fam.left?.map f.key? = left?.map some := by
  cases fam.left? with
  | none => cases left? <;> simp [childKey?]
  | some a =>
    cases hn : f.nodes[a]? <;> cases left? <;> simp [childKey?, node, key?, hn, Except.map]

/-- A family more at the end of a node's families. -/
def attach (f : Forest) (id : NodeId) (fam : Family) : Forest :=
  ⟨f.nodes.modify id fun n => ⟨n.key, n.families ++ [fam]⟩⟩

theorem getElem?_attach {n' : Node} {i : NodeId} (h : (f.attach id fam).nodes[i]? = some n') :
    ∃ n, f.nodes[i]? = some n ∧ n'.key = n.key ∧
      n'.families = if id = i then n.families ++ [fam] else n.families := by
  simp only [attach, List.getElem?_modify] at h
  obtain ⟨n, hn, rfl⟩ := Option.map_eq_some_iff.mp h
  refine ⟨n, hn, ?_⟩
  split <;> simp

theorem grows_attach (f : Forest) (id : NodeId) (fam : Family) : f.Grows (f.attach id fam) := by
  intro i n hn
  simp only [attach, List.getElem?_modify, hn]
  refine ⟨_, rfl, ?_⟩
  split <;> simp

theorem keys_attach (f : Forest) (id : NodeId) (fam : Family) :
    (f.attach id fam).nodes.map (·.key) = f.nodes.map (·.key) := by
  refine List.ext_getElem? fun i => ?_
  simp only [attach, List.getElem?_map, List.getElem?_modify]
  cases f.nodes[i]? with
  | none => rfl
  | some n => by_cases h : id = i <;> simp [h]

theorem valid_attach {n : Node} (hf : f.Valid) (hn : f.nodes[id]? = some n)
    (hnames : f.Names fam left? right) (hc : Family.check n.key left? right = .ok ())
    (hnew : fam ∉ n.families) : (f.attach id fam).Valid where
  distinct := by rw [keys_attach]; exact hf.distinct
  forward m hm := by
    obtain ⟨i, hi⟩ := List.mem_iff_getElem?.mp hm
    obtain ⟨m', hm', hk, -⟩ := getElem?_attach hi
    rw [hk]
    exact hf.forward m' (List.mem_of_getElem? hm')
  once m hm := by
    obtain ⟨i, hi⟩ := List.mem_iff_getElem?.mp hm
    obtain ⟨m', hm', -, hfams⟩ := getElem?_attach hi
    have honce := hf.once m' (List.mem_of_getElem? hm')
    rw [hfams]
    split
    · next e =>
      subst e
      obtain rfl : n = m' := Option.some.inj (hn.symm.trans hm')
      refine List.nodup_append.mpr ⟨honce, by simp, ?_⟩
      intro a ha b hb e
      exact hnew (List.mem_singleton.mp hb ▸ e ▸ ha)
    · exact honce
  tiled m hm fam' hfam' := by
    obtain ⟨i, hi⟩ := List.mem_iff_getElem?.mp hm
    obtain ⟨m', hm', hk, hfams⟩ := getElem?_attach hi
    rw [hk]
    rw [hfams] at hfam'
    by_cases hold : fam' ∈ m'.families
    · obtain ⟨l, r, hl, hcheck⟩ := hf.tiled m' (List.mem_of_getElem? hm') fam' hold
      exact ⟨l, r, (grows_attach f id fam).names hl, hcheck⟩
    · split at hfam'
      · next e =>
        subst e
        obtain rfl : n = m' := Option.some.inj (hn.symm.trans hm')
        have : fam' = fam := by simpa [hold] using hfam'
        exact ⟨left?, right, (grows_attach f id fam).names (this ▸ hnames), hc⟩
      · exact absurd hfam' hold

theorem addFamily_eq {n : Node} (hn : f.nodes[id]? = some n) (hnames : f.Names fam left? right)
    (hc : Family.check n.key left? right = .ok ()) : f.addFamily id fam =
      if fam ∈ n.families then .ok (false, f) else .ok (true, f.attach id fam) := by
  obtain ⟨m, hm, rfl⟩ := key?_eq_some_iff.mp hnames.2
  unfold addFamily
  rw [node_eq_ok_iff.mpr hn, node_eq_ok_iff.mpr hm, childKey?_eq_ok_iff.mpr hnames.1]
  simp only [bind, Except.bind, hc]
  split <;> rfl

/-- **A family that tiles is there afterwards**, and nothing else changes. -/
theorem addFamily_spec (hf : f.Valid) (hid : f.key? id = some key)
    (hnames : f.Names fam left? right) (hc : Family.check key left? right = .ok ()) :
    ∃ b f', f.addFamily id fam = .ok (b, f') ∧ f'.Valid ∧ f.Grows f' ∧
      f'.Packs key left? right ∧
      ∀ n' ∈ f'.nodes, ∃ n ∈ f.nodes, n'.key = n.key ∧
        (n'.families = n.families ∨ n.key = key ∧ n'.families = n.families ++ [fam]) := by
  obtain ⟨n, hn, rfl⟩ := key?_eq_some_iff.mp hid
  rw [addFamily_eq hn hnames hc]
  by_cases hmem : fam ∈ n.families
  · rw [if_pos hmem]
    refine ⟨false, f, rfl, hf, .refl f, ?_, fun n' hn' => ⟨n', hn', rfl, .inl rfl⟩⟩
    exact ⟨n, List.mem_of_getElem? hn, rfl, fam, hmem, hnames⟩
  · rw [if_neg hmem]
    refine ⟨true, f.attach id fam, rfl, valid_attach hf hn hnames hc hmem, grows_attach f id fam,
      ?_, ?_⟩
    · refine ⟨⟨n.key, n.families ++ [fam]⟩, ?_, rfl, fam, by simp,
        (grows_attach f id fam).names hnames⟩
      refine List.mem_of_getElem? (i := id) ?_
      simp [attach, hn]
    · intro n' hn'
      obtain ⟨i, hi⟩ := List.mem_iff_getElem?.mp hn'
      obtain ⟨m', hm', hk, hfams⟩ := getElem?_attach hi
      refine ⟨m', List.mem_of_getElem? hm', hk, ?_⟩
      split at hfams
      · next e =>
        subst e
        obtain rfl : n = m' := Option.some.inj (hn.symm.trans hm')
        exact .inr ⟨rfl, hfams⟩
      · exact .inl hfams

end Forest

end Parsing
