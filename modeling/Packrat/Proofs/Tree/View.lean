import Packrat.Proofs.Tree.Place
import Packrat.Tree.Patch

/-!
What is seen of a live tree.

A tree is seen through `Tree.node?`, which lets every node catch up with the log first.  Catching up
for good, one node after the other or all of them at once, does not change what is seen
(`Tree.node?_catchUp`, `Tree.node?_compact`), and the walks over a tree list the numbers of its shape
(`Tree.Arranged.preorder_eq`, `Tree.Linked.descendants_perm`).
-/

namespace Packrat

namespace Tree

variable {t t' : Tree} {sh : Shape} {parent : Option Nat}

/-! ### Catching up -/

@[simp] theorem current_seen (t : Tree) (s : Slot) : (t.current s).seen = t.version := by
  unfold current
  split
  · assumption
  · rfl

@[simp] theorem current_current (t : Tree) (s : Slot) : t.current (t.current s) = t.current s :=
  current_of_seen (current_seen t s)

theorem foldl_shift_links (ds : List Shift) (s : Slot) :
    (ds.foldl Slot.shift s).parent = s.parent ∧ (ds.foldl Slot.shift s).children = s.children := by
  induction ds generalizing s with
  | nil => exact ⟨rfl, rfl⟩
  | cons d ds ih => exact ih (s.shift d)

theorem current_links (t : Tree) (s : Slot) :
    (t.current s).parent = s.parent ∧ (t.current s).children = s.children := by
  have hlinks := foldl_shift_links (t.pending.extract (s.seen - t.base) t.pending.size).toList s
  rw [Array.foldl_toList] at hlinks
  unfold current
  split
  · exact ⟨rfl, rfl⟩
  · dsimp only
    split
    · exact hlinks
    · exact hlinks

theorem node?_eq_some {id : Nat} {s : Slot} (h : t.slots[id]? = some s) :
    t.node? id = some (t.current s) := by
  unfold node?
  rw [h]
  rfl

theorem infoAt_of_node? {id : Nat} {s : Slot} (h : t.node? id = some s) : t.infoAt id = s.info := by
  unfold infoAt
  rw [h]
  rfl

/-- What is seen depends on the log only. -/
theorem current_congr (hpending : t'.pending = t.pending) (hbase : t'.base = t.base)
    (hlines : t'.source.lines = t.source.lines) (s : Slot) : t'.current s = t.current s := by
  unfold current version
  rw [hpending, hbase, hlines]

theorem getElem?_catchUp (t : Tree) (id j : Nat) :
    (t.catchUp id).slots[j]? = if id = j then t.node? j else t.slots[j]? := by
  unfold catchUp node?
  rw [Array.getElem?_modify]

theorem node?_catchUp (t : Tree) (id j : Nat) : (t.catchUp id).node? j = t.node? j := by
  show ((t.catchUp id).slots[j]?).map t.current = t.node? j
  rw [getElem?_catchUp]
  split
  · unfold node?
    rw [Option.map_map]
    congr 1
    funext s
    exact current_current t s
  · rfl

/-- The same tree, some of its nodes closer to the end of the log. -/
structure SameView (t t' : Tree) : Prop where
  source : t'.source = t.source
  free : t'.free = t.free
  root : t'.root = t.root
  documentReads : t'.documentReads = t.documentReads
  pending : t'.pending = t.pending
  base : t'.base = t.base
  size : t'.slots.size = t.slots.size
  slot : ∀ j, t'.slots[j]? = t.slots[j]? ∨ t'.slots[j]? = t.node? j

namespace SameView

theorem refl (t : Tree) : SameView t t := ⟨rfl, rfl, rfl, rfl, rfl, rfl, rfl, fun _ => .inl rfl⟩

theorem version (h : SameView t t') : t'.version = t.version := by
  unfold Tree.version
  rw [h.pending, h.base]

theorem current_eq (h : SameView t t') (s : Slot) : t'.current s = t.current s :=
  current_congr h.pending h.base (by rw [h.source]) s

theorem node?_eq (h : SameView t t') (j : Nat) : t'.node? j = t.node? j := by
  have hcurrent : t'.current = t.current := funext h.current_eq
  unfold node?
  rw [hcurrent]
  rcases h.slot j with heq | heq
  · rw [heq]
  · rw [heq, node?, Option.map_map]
    congr 1
    funext s
    exact current_current t s

theorem trans {t'' : Tree} (h : SameView t t') (h' : SameView t' t'') : SameView t t'' where
  source := h'.source.trans h.source
  free := h'.free.trans h.free
  root := h'.root.trans h.root
  documentReads := h'.documentReads.trans h.documentReads
  pending := h'.pending.trans h.pending
  base := h'.base.trans h.base
  size := h'.size.trans h.size
  slot := by
    intro j
    rcases h'.slot j with heq | heq
    · rw [heq]
      exact h.slot j
    · rw [heq, h.node?_eq]
      exact .inr rfl

/-- Nodes keep their parents and children. -/
theorem links (h : SameView t t') {j : Nat} {s : Slot} (hs : t.slots[j]? = some s) :
    ∃ s', t'.slots[j]? = some s' ∧ s'.parent = s.parent ∧ s'.children = s.children := by
  rcases h.slot j with heq | heq
  · exact ⟨s, heq.trans hs, rfl, rfl⟩
  · exact ⟨t.current s, by rw [heq, node?, hs]; rfl, current_links t s⟩

theorem infoAt_eq (h : SameView t t') (j : Nat) : t'.infoAt j = t.infoAt j := by
  unfold infoAt
  rw [h.node?_eq]

theorem subtree_eq (h : SameView t t') (sh : Shape) : t'.subtree sh = t.subtree sh :=
  subtree_congr fun id _ => h.infoAt_eq id

theorem arranged (h : SameView t t') (ht : t.Arranged sh) : t'.Arranged sh where
  root := by rw [h.root]; exact ht.root
  linked := ht.linked.congr fun _ _ _ hs => h.links hs
  perm := by rw [h.free, h.size]; exact ht.perm
  seen := by
    intro s hs
    obtain ⟨j, hj⟩ := Array.mem_iff_getElem?.1 hs
    rw [h.base, h.version]
    rcases h.slot j with heq | heq
    · exact ht.seen s (Array.mem_iff_getElem?.2 ⟨j, heq.symm.trans hj⟩)
    · obtain ⟨s₀, -, rfl⟩ := Option.map_eq_some_iff.1 (heq.symm.trans hj)
      rw [current_seen]
      exact ⟨Nat.le_add_right _ _, Nat.le_refl _⟩

end SameView

theorem catchUp_sameView (t : Tree) (id : Nat) : SameView t (t.catchUp id) where
  source := rfl
  free := rfl
  root := rfl
  documentReads := rfl
  pending := rfl
  base := rfl
  size := by simp [catchUp]
  slot := by
    intro j
    rw [getElem?_catchUp]
    split
    · exact .inr rfl
    · exact .inl rfl

theorem foldl_catchUp_sameView (ids : List Nat) (t : Tree) : SameView t (ids.foldl catchUp t) := by
  induction ids generalizing t with
  | nil => exact .refl t
  | cons id ids ih => exact (catchUp_sameView t id).trans (ih _)

/-- The nodes that have caught up stand in their slots as they are seen. -/
theorem getElem?_foldl_catchUp (ids : List Nat) (t : Tree) (j : Nat) :
    (ids.foldl catchUp t).slots[j]? = if j ∈ ids then t.node? j else t.slots[j]? := by
  induction ids generalizing t with
  | nil => rfl
  | cons id ids ih =>
    rw [List.foldl_cons, ih, node?_catchUp, getElem?_catchUp]
    by_cases h : j ∈ ids
    · simp [h]
    · by_cases h' : id = j
      · simp [h, h']
      · simp [h, h', Ne.symm h']

theorem node?_compact (t : Tree) (j : Nat) : t.compact.node? j = t.node? j := by
  have hcurrent : ∀ s, t.compact.current (t.current s) = t.current s :=
    fun s => current_of_seen (current_seen t s)
  show ((t.slots.map t.current)[j]?).map t.compact.current = t.node? j
  unfold node?
  rw [Array.getElem?_map, Option.map_map]
  congr 1
  funext s
  exact hcurrent s

theorem Arranged.compact (h : t.Arranged sh) : t.compact.Arranged sh where
  root := h.root
  linked := h.linked.congr fun id _ slot hslot =>
    ⟨t.current slot, by simp [Tree.compact, hslot], current_links t slot⟩
  perm := by simpa [Tree.compact] using h.perm
  seen := by
    intro slot hslot
    obtain ⟨slot, -, rfl⟩ := Array.mem_map.1 hslot
    rw [current_seen]
    exact ⟨Nat.le_refl _, Nat.le_add_right _ _⟩

/-! ### Walks -/

theorem Linked.preorderFrom_eq (h : t.Linked parent sh) {fuel : Nat} (hfuel : sh.height ≤ fuel) :
    t.preorderFrom fuel sh.id = sh.ids := by
  induction sh using Shape.induct generalizing parent fuel with
  | step id children ih =>
    have hbelow := (linked_node.1 h).2
    rw [Shape.height] at hfuel
    obtain ⟨fuel, rfl⟩ : ∃ k, fuel = k + 1 := ⟨fuel - 1, by omega⟩
    rw [preorderFrom, h.children_eq, Shape.ids_node, List.flatMap_map]
    show id :: _ = _
    congr 1
    refine List.flatMap_congr fun c hc => ?_
    have hheight : c.height ≤ Shape.heightAll children := Shape.height_le_heightAll hc
    exact ih c hc (hbelow c hc) (by omega)

theorem Arranged.preorder_eq (h : t.Arranged sh) : t.preorder = sh.ids := by
  unfold preorder
  rw [← h.root]
  exact h.linked.preorderFrom_eq h.height_le

/-- The nodes below a node are those of its shape without itself. -/
theorem Linked.descendants_perm (h : t.Linked parent sh) {fuel : Nat} (hfuel : sh.height ≤ fuel) :
    (sh.id :: t.descendants fuel sh.id).Perm sh.ids := by
  induction sh using Shape.induct generalizing parent fuel with
  | step id children ih =>
    have hbelow := (linked_node.1 h).2
    rw [Shape.height] at hfuel
    obtain ⟨fuel, rfl⟩ : ∃ k, fuel = k + 1 := ⟨fuel - 1, by omega⟩
    rw [descendants, h.children_eq, Shape.ids_node, List.flatMap_map]
    refine List.Perm.cons id (List.Perm.flatMap_left _ fun c hc => ?_)
    refine List.Perm.trans (List.perm_append_singleton _ _) ?_
    have hheight : c.height ≤ Shape.heightAll children := Shape.height_le_heightAll hc
    exact ih c hc (hbelow c hc) (by omega)

end Tree

end Packrat
