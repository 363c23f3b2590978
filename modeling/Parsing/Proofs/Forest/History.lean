/-
# What a store holds is told by its history

The history of a store lists the calls made to it with what they came to. The nodes of the store
can be told from it: they are those that the answered calls asked for, in order of the first call
for each, and the families of a node are those that the answered calls gave to it, again in order
of the first call for each. A call adds a key or a family behind the others, or it tells nothing
new, and then nothing has changed.

Key definitions: `History.Kept`.
Key theorems: `History.Kept.logged`, `History.Kept.calls`, `History.kept_ofCalls`,
`History.store_keeps`.
-/
import Parsing.Proofs.Forest.Store

namespace Parsing

/-! ### Lists without repeats -/

theorem eraseDups_concat {α : Type} [DecidableEq α] (l : List α) (a : α) :
    (l ++ [a]).eraseDups = if a ∈ l.eraseDups then l.eraseDups else l.eraseDups ++ [a] := by
  rw [List.eraseDups_append]
  by_cases h : a ∈ l
  · simp [List.removeAll, h]
  · simp [List.removeAll, h, List.eraseDups_cons]

namespace History

variable {h : History} {c : Forest.Call} {answer : Except Fault Forest.Answer} {s : Store}

/-- The history with one more entry in its log, and the store afterwards. -/
def logged (h : History) (c : Forest.Call) (answer : Except Fault Forest.Answer) (s : Store) :
    History := ⟨h.log ++ [(c, answer)], s⟩

theorem keys_logged (h : History) (s : Store) : (h.logged c answer s).keys =
    match key? (c, answer) with
    | some key => if key ∈ h.keys then h.keys else h.keys ++ [key]
    | none => h.keys := by
  unfold keys logged
  rw [List.filterMap_append]
  cases hkey : key? (c, answer) with
  | none => simp [hkey]
  | some key => simpa [hkey] using eraseDups_concat (h.log.filterMap key?) key

theorem families_logged (h : History) (s : Store) (id : NodeId) :
    (h.logged c answer s).families id =
      match family? id (c, answer) with
      | some fam => if fam ∈ h.families id then h.families id else h.families id ++ [fam]
      | none => h.families id := by
  unfold families logged
  rw [List.filterMap_append]
  cases hfam : family? id (c, answer) with
  | none => simp [hfam]
  | some fam => simpa [hfam] using eraseDups_concat (h.log.filterMap (family? id)) fam

/-- What holds of a store and of the calls that it has answered. -/
structure Kept (h : History) : Prop where
  valid : h.store.forest.Valid
  indexed : h.store.Indexed
  nodes : h.store.nodes = h.keys.mapIdx fun id key => ⟨key, h.families id⟩
  beyond : ∀ id, h.keys.length ≤ id → h.families id = []

namespace Kept

theorem start : Kept ⟨[], Store.empty⟩ where
  valid := by constructor <;> simp [Store.empty, Store.forest]
  indexed key id := by simp [Store.empty, Store.forest, Forest.key?]
  nodes := rfl
  beyond _ _ := rfl

theorem key?_eq (hk : h.Kept) (id : NodeId) : h.store.forest.key? id = h.keys[id]? := by
  simp [Forest.key?, Store.forest, hk.nodes, Option.map_map, Function.comp_def]

theorem has_iff (hk : h.Kept) {id : NodeId} {fam : Family} :
    h.store.forest.Has id fam ↔ fam ∈ h.families id := by
  have hnode : h.store.nodes[id]? = h.keys[id]?.map fun key => ⟨key, h.families id⟩ := by
    rw [hk.nodes, List.getElem?_mapIdx]
  unfold Forest.Has
  rw [Store.forest, hnode]
  by_cases hid : id < h.keys.length
  · simp [hid]
  · have hid : h.keys.length ≤ id := Nat.le_of_not_lt hid
    simp [hid, hk.beyond id hid]

/-- A call that tells nothing new of the nodes leaves all as it is. -/
theorem same (hk : h.Kept) (hkeys : (h.logged c answer h.store).keys = h.keys)
    (hfamilies : ∀ id, (h.logged c answer h.store).families id = h.families id) :
    (h.logged c answer h.store).Kept where
  valid := hk.valid
  indexed := hk.indexed
  nodes := by
    simp only [hkeys, hfamilies]
    exact hk.nodes
  beyond id hid := by
    rw [hfamilies]
    exact hk.beyond id (hkeys ▸ hid)

theorem created (hk : h.Kept) {key : NodeKey} (hspan : key.start ≤ key.stop)
    (hnew : ∀ id, h.store.forest.key? id ≠ some key) :
    (h.logged (.ensure key) (.ok (.node h.store.nodes.length)) (h.store.push key)).Kept := by
  let h' := h.logged (.ensure key) (.ok (.node h.store.nodes.length)) (h.store.push key)
  show h'.Kept
  have hs : h.store.Serves (.ensure key) (.ok (.node h.store.nodes.length)) h'.store :=
    .created hspan hnew
  have hkey : key ∉ h.keys := fun hmem => by
    obtain ⟨id, hid⟩ := List.mem_iff_getElem?.mp hmem
    exact hnew id ((hk.key?_eq id).trans hid)
  have hkeys : h'.keys = h.keys ++ [key] := (keys_logged h _).trans (if_neg hkey)
  have hfamilies : h'.families = h.families := funext fun id => families_logged h _ id
  refine ⟨hs.valid hk.valid, hs.indexed hk.indexed, ?_, fun id hid => ?_⟩
  · -- no family was added to the name before there was a node of the name
    have hstore : h'.store.nodes = h.store.nodes ++ [⟨key, []⟩] := rfl
    rw [hstore, hk.nodes, hkeys, hfamilies, List.mapIdx_concat, hk.beyond _ (Nat.le_refl _)]
  · rw [hkeys, List.length_append] at hid
    rw [hfamilies]
    exact hk.beyond id (Nat.le_of_succ_le hid)

theorem added (hk : h.Kept) {id : NodeId} {fam : Family} (htiles : h.store.forest.Tiles id fam)
    (hnew : ¬ h.store.forest.Has id fam) :
    (h.logged (.addFamily id fam) (.ok (.changed true)) (h.store.attach id fam)).Kept := by
  let h' := h.logged (.addFamily id fam) (.ok (.changed true)) (h.store.attach id fam)
  show h'.Kept
  have hs : h.store.Serves (.addFamily id fam) (.ok (.changed true)) h'.store :=
    .added htiles hnew
  have hkeys : h'.keys = h.keys := keys_logged h _
  have hfamilies : ∀ i, h'.families i =
      if id = i then h.families i ++ [fam] else h.families i := by
    intro i
    rw [families_logged]
    by_cases hi : id = i
    · subst hi
      simp [family?, mt hk.has_iff.mpr hnew]
    · simp [family?, hi]
  have hid : id < h.keys.length := by
    obtain ⟨key, -, -, hkey, -⟩ := htiles
    exact (List.getElem?_eq_some_iff.mp ((hk.key?_eq id).symm.trans hkey)).1
  refine ⟨hs.valid hk.valid, hs.indexed hk.indexed, ?_, fun i hi => ?_⟩
  · have hstore : h'.store.nodes =
        h.store.nodes.modify id fun n => ⟨n.key, n.families ++ [fam]⟩ := rfl
    refine List.ext_getElem? fun i => ?_
    rw [hstore, hk.nodes, hkeys, List.getElem?_modify, List.getElem?_mapIdx, List.getElem?_mapIdx,
      hfamilies]
    cases h.keys[i]? with
    | none => rfl
    | some key => by_cases hi : id = i <;> simp [hi]
  · rw [hkeys] at hi
    rw [hfamilies, if_neg (Nat.ne_of_lt (Nat.lt_of_lt_of_le hid hi))]
    exact hk.beyond i hi

/-- **What a store holds can be told after each call.** -/
theorem logged (hk : h.Kept) (hs : h.store.Serves c answer s) : (h.logged c answer s).Kept := by
  cases hs with
  | @known key id hspan hid =>
    have hmem : key ∈ h.keys := List.mem_of_getElem? ((hk.key?_eq id).symm.trans hid)
    exact hk.same ((keys_logged h _).trans (if_pos hmem)) fun id => families_logged h _ id
  | created hspan hnew => exact hk.created hspan hnew
  | reversed | found | refused =>
    exact hk.same (keys_logged h _) fun id => families_logged h _ id
  | @present id fam htiles hhas =>
    refine hk.same (keys_logged h _) fun i => ?_
    rw [families_logged]
    by_cases hi : id = i
    · subst hi
      simp [family?, hk.has_iff.mp hhas]
    · simp [family?, hi]
  | added htiles hnew => exact hk.added htiles hnew

theorem next (hk : h.Kept) (c : Forest.Call) : (h.next c).Kept :=
  hk.logged (Store.serves hk.indexed c)

/-- **What a store holds can be told after any calls**, and what was there before is still there. -/
theorem calls : ∀ (cs : List Forest.Call) {h : History}, h.Kept →
    (cs.foldl History.next h).Kept ∧ h.store.forest.Grows (cs.foldl History.next h).store.forest
  | [], _, hk => ⟨hk, .refl _⟩
  | c :: cs, h, hk => by
    obtain ⟨hkept, hgrows⟩ := calls cs (hk.next c)
    exact ⟨hkept, (Store.serves hk.indexed c).grows.trans hgrows⟩

theorem forest_calls : ∀ (cs : List Forest.Call) {h : History}, h.Kept →
    (cs.foldl History.next h).store.forest = cs.foldl Forest.next h.store.forest
  | [], _, _ => rfl
  | c :: cs, h, hk => by
    have hnext : h.store.forest.next c = (h.next c).store.forest :=
      (Store.serves hk.indexed c).next_eq hk.valid
    rw [List.foldl_cons, List.foldl_cons, hnext]
    exact forest_calls cs (hk.next c)

end Kept

theorem kept_ofCalls (calls : List Forest.Call) : (ofCalls calls).Kept :=
  (Kept.start.calls calls).1

theorem forest_ofCalls (calls : List Forest.Call) :
    (ofCalls calls).store.forest = Forest.after calls := Kept.start.forest_calls calls

/-- **A store keeps its forest.** After any calls, refused ones among them, the nodes are those
that the answered calls asked for, in order of the first call for each, and the families of a node
those that the answered calls gave to it, in order of the first call for each. No key stands twice,
nor does a family of a node, and families tile. More calls leave keys and families in their places.
The next call comes to what `Store.Serves` tells; it is refused when its span is reversed or its
family does not tile, and only then, and leaves the store as it is. A forest without an index holds
the same and answers the same. -/
theorem store_keeps (calls : List Forest.Call) :
    let h := ofCalls calls
    let s := h.store
    let f := s.forest
    (s.nodes.map (·.key)).Nodup ∧
    s.nodes = h.keys.mapIdx (fun id key => ⟨key, h.families id⟩) ∧
    (∀ id n, s.nodes[id]? = some n → n.families.Nodup ∧ ∀ fam ∈ n.families, f.Tiles id fam) ∧
    (∀ more, f.Grows (ofCalls (calls ++ more)).store.forest) ∧
    (∀ c, s.Serves c (Store.run (Store.call c) s).1 (Store.run (Store.call c) s).2) ∧
    (∀ c, (∃ e, (Store.run (Store.call c) s).1 = .error e) ↔ f.Refuses c) ∧
    (∀ c, f.Refuses c → (Store.run (Store.call c) s).2 = s) ∧
    f = Forest.after calls ∧
    ∀ c, f.answer c = (Store.run (Store.call c) s).1.map fun answer =>
      (answer, (Store.run (Store.call c) s).2.forest) := by
  intro h s f
  have hk : h.Kept := kept_ofCalls calls
  have hserves := Store.serves hk.indexed
  refine ⟨hk.valid.distinct, hk.nodes, fun id n hn => ⟨?_, fun fam hfam => ?_⟩, fun more => ?_,
    hserves, fun c => (hserves c).refuses_iff, fun c hc => (hserves c).eq_of_refuses hc, ?_,
    fun c => (hserves c).answer_eq hk.valid⟩
  · exact hk.valid.once n (List.mem_of_getElem? hn)
  · exact hk.valid.tiles hn hfam
  · unfold ofCalls
    rw [List.foldl_append]
    exact (hk.calls more).2
  · exact forest_ofCalls calls

end History

/-- **A forest is valid after any calls.** -/
theorem Forest.valid_after (calls : List Call) : (after calls).Valid :=
  History.forest_ofCalls calls ▸ (History.kept_ofCalls calls).valid

end Parsing
