import Packrat.Tree.Printer
import Packrat.Proofs.Tree.Subtree
import Mathlib.Data.List.Basic
import Mathlib.Data.List.Nodup

/-!
The shape of a live tree.

The nodes of a live tree stand in slots and refer to each other by number.  `Tree.subtreeFrom` reads
the tree off these references, as a caller would who follows the children from the root.  For proofs
the references are collected in a shape, a tree of numbers (`Shape`): the slots agree with the shape
(`Tree.Linked`), and what is read is what the slots of the shape say (`Tree.subtreeFrom_eq`).
-/

namespace Packrat

/-- A tree of numbers. -/
inductive Shape where
  | node (id : Nat) (children : List Shape)

namespace Shape

variable {P : Shape → Prop}

mutual

/-- To show something of every shape, it can be assumed of the children of a node. -/
theorem induct (step : ∀ id children, (∀ c ∈ children, P c) → P (.node id children)) : ∀ sh, P sh
  | .node id children => step id children (inductAll step children)

theorem inductAll (step : ∀ id children, (∀ c ∈ children, P c) → P (.node id children)) :
    ∀ shs : List Shape, ∀ sh ∈ shs, P sh
  | [] => fun _ h => by cases h
  | sh :: shs => fun u h => (List.mem_cons.1 h).elim (fun e => e ▸ induct step sh)
      (inductAll step shs u)

end

def id : Shape → Nat
  | node id _ => id

def children : Shape → List Shape
  | node _ children => children

mutual

/-- The numbers in preorder. -/
def ids : Shape → List Nat
  | node id children => id :: idsAll children

def idsAll : List Shape → List Nat
  | [] => []
  | sh :: shs => ids sh ++ idsAll shs

end

theorem idsAll_eq (shs : List Shape) : idsAll shs = shs.flatMap ids := by
  induction shs with
  | nil => rfl
  | cons sh shs ih => simp only [idsAll, List.flatMap_cons, ih]

theorem ids_node (id : Nat) (children : List Shape) :
    (node id children).ids = id :: children.flatMap ids := by rw [ids, idsAll_eq]

theorem id_mem_ids (sh : Shape) : sh.id ∈ sh.ids := by
  cases sh with
  | node id children => simp [ids_node, Shape.id]

theorem mem_ids_of_child {sh c : Shape} (hc : c ∈ sh.children) {id : Nat} (hid : id ∈ c.ids) :
    id ∈ sh.ids := by
  cases sh with
  | node id' children => exact List.mem_cons_of_mem _ (by
      rw [idsAll_eq]; exact List.mem_flatMap.2 ⟨c, hc, hid⟩)

mutual

/-- Every number with that of its parent and those of its children. -/
def links (parent : Option Nat) : Shape → List (Nat × Option Nat × List Nat)
  | node id children => (id, parent, children.map Shape.id) :: linksAll id children

def linksAll (parent : Nat) : List Shape → List (Nat × Option Nat × List Nat)
  | [] => []
  | sh :: shs => links (some parent) sh ++ linksAll parent shs

end

theorem linksAll_eq (parent : Nat) (shs : List Shape) :
    linksAll parent shs = shs.flatMap (links (some parent)) := by
  induction shs with
  | nil => rfl
  | cons sh shs ih => simp only [linksAll, List.flatMap_cons, ih]

theorem links_node (parent : Option Nat) (id : Nat) (children : List Shape) :
    (node id children).links parent
      = (id, parent, children.map Shape.id) :: children.flatMap (links (some id)) := by
  rw [links, linksAll_eq]

theorem map_links (sh : Shape) (parent : Option Nat) : (sh.links parent).map Prod.fst = sh.ids := by
  induction sh using induct generalizing parent with
  | step id children ih =>
    rw [links_node, ids_node, List.map_cons, List.map_flatMap]
    congr 1
    exact List.flatMap_congr fun c hc => ih c hc (some id)

theorem mem_ids_of_links {sh : Shape} {parent : Option Nat} {l : Nat × Option Nat × List Nat}
    (h : l ∈ sh.links parent) : l.1 ∈ sh.ids := by
  rw [← map_links sh parent]
  exact List.mem_map_of_mem h

mutual

/-- The number of nodes on the longest way down. -/
def height : Shape → Nat
  | node _ children => heightAll children + 1

def heightAll : List Shape → Nat
  | [] => 0
  | sh :: shs => max (height sh) (heightAll shs)

end

theorem height_le_heightAll {shs : List Shape} {sh : Shape} (h : sh ∈ shs) :
    sh.height ≤ heightAll shs := by
  induction shs with
  | nil => cases h
  | cons sh' shs ih =>
    rw [heightAll]
    rcases List.mem_cons.1 h with rfl | h
    · omega
    · have := ih h; omega

theorem heightAll_le_length {shs : List Shape} (ih : ∀ sh ∈ shs, sh.height ≤ sh.ids.length) :
    heightAll shs ≤ (idsAll shs).length := by
  induction shs with
  | nil => exact Nat.le_refl 0
  | cons sh shs ihs =>
    have h₁ := ih sh (by simp)
    have h₂ := ihs fun sh hsh => ih sh (by simp [hsh])
    simp only [heightAll, idsAll, List.length_append]
    omega

theorem height_le_length (sh : Shape) : sh.height ≤ sh.ids.length := by
  induction sh using induct with
  | step id children ih =>
    rw [height, ids, List.length_cons]
    exact Nat.succ_le_succ (heightAll_le_length ih)

end Shape

namespace Tree

variable {t t' : Tree} {sh : Shape} {parent : Option Nat}

/-- A node that has seen everything is seen as it stands in its slot. -/
theorem current_of_seen {slot : Slot} (h : slot.seen = t.version) : t.current slot = slot := by
  unfold current
  rw [if_pos h]

/-- What a node says about itself; nothing if there is no such node. -/
def infoAt (t : Tree) (id : Nat) : NodeInfo := ((t.node? id).map (·.info)).getD {}

/-- The whole tree, read by following the children from the root. -/
def asSubtree (t : Tree) : Subtree := t.subtreeFrom t.slots.size t.root

/-- The slots agree with the shape about parents and children. -/
def Linked (t : Tree) (parent : Option Nat) (sh : Shape) : Prop :=
  ∀ l ∈ sh.links parent, ∃ slot, t.slots[l.1]? = some slot ∧ slot.parent = l.2.1
    ∧ slot.children = l.2.2

mutual

/-- What the slots of a shape say. -/
def subtree (t : Tree) : Shape → Subtree
  | .node id children => .node (t.infoAt id) (subtreeAll t children)

def subtreeAll (t : Tree) : List Shape → List Subtree
  | [] => []
  | sh :: shs => subtree t sh :: subtreeAll t shs

end

theorem subtreeAll_eq (t : Tree) (shs : List Shape) : t.subtreeAll shs = shs.map t.subtree := by
  induction shs with
  | nil => rfl
  | cons sh shs ih => rw [subtreeAll, ih, List.map_cons]

theorem subtree_node (t : Tree) (id : Nat) (children : List Shape) :
    t.subtree (.node id children) = .node (t.infoAt id) (children.map t.subtree) := by
  rw [subtree, subtreeAll_eq]

theorem info_subtree (t : Tree) (sh : Shape) : (t.subtree sh).info = t.infoAt sh.id := by
  cases sh with
  | node id children => rw [subtree_node]; rfl

theorem linked_node {id : Nat} {children : List Shape} :
    t.Linked parent (.node id children) ↔
      (∃ slot, t.slots[id]? = some slot ∧ slot.parent = parent
        ∧ slot.children = children.map Shape.id) ∧ ∀ c ∈ children, t.Linked (some id) c := by
  simp only [Linked, Shape.links_node, List.mem_cons, forall_eq_or_imp, List.mem_flatMap]
  refine and_congr_right fun _ => ⟨fun h c hc l hl => h l ⟨c, hc, hl⟩, ?_⟩
  rintro h l ⟨c, hc, hl⟩
  exact h c hc l hl

/-- Following the children reads what the slots of the shape say. -/
theorem subtreeFrom_eq (h : t.Linked parent sh) {fuel : Nat} (hfuel : sh.height ≤ fuel) :
    t.subtreeFrom fuel sh.id = t.subtree sh := by
  induction sh using Shape.induct generalizing parent fuel with
  | step id children ih =>
    obtain ⟨⟨slot, hslot, -, hchildren⟩, hbelow⟩ := linked_node.1 h
    rw [Shape.height] at hfuel
    obtain ⟨fuel, rfl⟩ : ∃ k, fuel = k + 1 := ⟨fuel - 1, by omega⟩
    have hids : t.children id = children.map Shape.id := by
      simp only [Tree.children, hslot, Option.map_some, Option.getD_some, hchildren]
    rw [subtree_node, show (Shape.node id children).id = id from rfl, subtreeFrom, hids,
      List.map_map]
    congr 1
    refine List.map_congr_left fun c hc => ?_
    exact ih c hc (hbelow c hc) (by have := Shape.height_le_heightAll hc; omega)

/-- Slots that say the same give the same tree. -/
theorem subtree_congr (h : ∀ id ∈ sh.ids, t'.infoAt id = t.infoAt id) :
    t'.subtree sh = t.subtree sh := by
  induction sh using Shape.induct with
  | step id children ih =>
    rw [subtree_node, subtree_node, h id (Shape.id_mem_ids _)]
    congr 1
    exact List.map_congr_left fun c hc => ih c hc fun j hj => h j (Shape.mem_ids_of_child hc hj)

theorem Linked.congr (h : t.Linked parent sh)
    (heq : ∀ id ∈ sh.ids, ∀ slot, t.slots[id]? = some slot → ∃ slot', t'.slots[id]? = some slot'
      ∧ slot'.parent = slot.parent ∧ slot'.children = slot.children) : t'.Linked parent sh := by
  intro l hl
  obtain ⟨slot, hslot, h₁, h₂⟩ := h l hl
  obtain ⟨slot', hslot', h₁', h₂'⟩ := heq l.1 (Shape.mem_ids_of_links hl) slot hslot
  exact ⟨slot', hslot', h₁'.trans h₁, h₂'.trans h₂⟩

/-- A live tree in order: the shape hangs at the root, its numbers and the free ones are all there
are, and no node is ahead of the log or behind what the log still knows. -/
structure Arranged (t : Tree) (sh : Shape) : Prop where
  root : sh.id = t.root
  linked : t.Linked none sh
  perm : (sh.ids ++ t.free).Perm (List.range t.slots.size)
  seen : ∀ slot ∈ t.slots, t.base ≤ slot.seen ∧ slot.seen ≤ t.version

namespace Arranged

theorem nodup (h : t.Arranged sh) : (sh.ids ++ t.free).Nodup := h.perm.nodup_iff.2 List.nodup_range

theorem lt_size (h : t.Arranged sh) {id : Nat} (hid : id ∈ sh.ids) : id < t.slots.size := by
  have := h.perm.subset (List.mem_append_left t.free hid)
  simpa using this

theorem height_le (h : t.Arranged sh) : sh.height ≤ t.slots.size := by
  have hlen := h.perm.length_eq
  rw [List.length_append, List.length_range] at hlen
  have := sh.height_le_length
  omega

/-- The tree that is read off is the one that the slots of the shape hold. -/
theorem asSubtree_eq (h : t.Arranged sh) : t.asSubtree = t.subtree sh := by
  unfold asSubtree
  rw [← h.root]
  exact subtreeFrom_eq h.linked h.height_le

end Arranged

end Tree

end Packrat
