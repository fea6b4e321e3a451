import Packrat.Proofs.Tree.Shape
import Packrat.Tree.Query
import Mathlib.Data.List.Perm.Basic

/-!
Places in a tree.

Every number of a shape stands at a place: below some levels, each with what stands to the left and to
the right of the way down.  The levels are listed from below, the order in which the ancestors of a
node are found by following the parents (`Tree.upwards_eq`).  A shape with a place singled out is
`Shape.plug levels sub`, and putting another shape there keeps everything outside as it is.
-/

namespace Packrat

namespace Shape

/-- A node on the way down, with what stands beside the way. -/
structure Level where
  id : Nat
  left : List Shape
  right : List Shape

/-- The shape with `sub` at the place below the levels. -/
def plug : List Level → Shape → Shape
  | [], sub => sub
  | l :: ls, sub => plug ls (.node l.id (l.left ++ sub :: l.right))

/-- The numbers outside of a place. -/
def outer : List Level → List Nat
  | [] => []
  | l :: ls => l.id :: (l.left ++ l.right).flatMap ids ++ outer ls

variable {ls : List Level} {sub : Shape}

theorem plug_append (ls ls' : List Level) (sub : Shape) :
    plug (ls ++ ls') sub = plug ls' (plug ls sub) := by
  induction ls generalizing sub with
  | nil => rfl
  | cons l ls ih => exact ih _

theorem ids_plug (ls : List Level) (sub : Shape) : (plug ls sub).ids.Perm (sub.ids ++ outer ls) := by
  induction ls generalizing sub with
  | nil => simp [plug, outer]
  | cons l ls ih =>
    refine (ih _).trans ?_
    rw [outer, ids_node, ← List.append_assoc]
    refine List.Perm.append_right _ ?_
    rw [List.flatMap_append, List.flatMap_cons, List.flatMap_append]
    refine (List.Perm.cons l.id (List.perm_append_comm_assoc _ _ _)).trans ?_
    exact List.perm_middle.symm

theorem mem_ids_plug {id : Nat} : id ∈ (plug ls sub).ids ↔ id ∈ sub.ids ∨ id ∈ outer ls := by
  rw [(ids_plug ls sub).mem_iff, List.mem_append]

theorem mem_outer_cons {l : Level} {id : Nat} :
    id ∈ outer (l :: ls) ↔ id = l.id ∨ (∃ c ∈ l.left ++ l.right, id ∈ c.ids) ∨ id ∈ outer ls := by
  rw [outer, List.mem_append, List.mem_cons, List.mem_flatMap, or_assoc]

theorem length_le_outer (ls : List Level) : ls.length ≤ (outer ls).length := by
  induction ls with
  | nil => simp
  | cons l ls ih =>
    simp only [outer, List.length_append, List.length_cons]
    omega

theorem outer_append (ls ls' : List Level) : outer (ls ++ ls') = outer ls ++ outer ls' := by
  induction ls with
  | nil => rfl
  | cons l ls ih => simp only [List.cons_append, outer, ih, List.append_assoc]

/-- Every number of a shape stands at a place. -/
theorem exists_plug {sh : Shape} {id : Nat} (h : id ∈ sh.ids) :
    ∃ ls sub, sh = plug ls sub ∧ sub.id = id := by
  induction sh using induct with
  | step id' children ih =>
    rw [ids_node, List.mem_cons, List.mem_flatMap] at h
    rcases h with rfl | ⟨c, hc, hid⟩
    · exact ⟨[], _, rfl, rfl⟩
    · obtain ⟨ls, sub, rfl, hsub⟩ := ih c hc hid
      obtain ⟨left, right, rfl⟩ := List.append_of_mem hc
      exact ⟨ls ++ [⟨id', left, right⟩], sub, by rw [plug_append]; rfl, hsub⟩

theorem id_mem_outer {l : Level} (h : l ∈ ls) : l.id ∈ outer ls := by
  induction ls with
  | nil => cases h
  | cons l' ls ih =>
    rw [mem_outer_cons]
    rcases List.mem_cons.1 h with rfl | h
    · exact .inl rfl
    · exact .inr (.inr (ih h))

/-- The number at the top: that of the highest level. -/
theorem id_plug (ls : List Level) (sub : Shape) :
    (plug ls sub).id = ((ls.map Level.id).getLast?).getD sub.id := by
  induction ls generalizing sub with
  | nil => rfl
  | cons l ls ih =>
    rw [plug, ih, List.map_cons, List.getLast?_cons]
    rfl

/-- The number above a place. -/
def parentOf (parent : Option Nat) : List Level → Option Nat
  | [] => parent
  | l :: _ => some l.id

end Shape

namespace Tree

open Shape

variable {t t' : Tree} {parent : Option Nat} {ls : List Level} {sub : Shape}

/-- The slots of the levels and of what stands beside them agree with the levels; `below` is the
number at the place itself. -/
def Framed (t : Tree) (parent : Option Nat) : List Level → (below : Nat) → Prop
  | [], _ => True
  | l :: ls, below =>
    (∃ slot, t.slots[l.id]? = some slot ∧ slot.parent = parentOf parent ls
      ∧ slot.children = l.left.map Shape.id ++ below :: l.right.map Shape.id)
      ∧ (∀ c ∈ l.left ++ l.right, t.Linked (some l.id) c) ∧ Framed t parent ls l.id

/-- The slots agree with a shape if they agree at the place and outside of it. -/
theorem linked_plug :
    t.Linked parent (plug ls sub) ↔ t.Linked (parentOf parent ls) sub ∧ t.Framed parent ls sub.id := by
  induction ls generalizing sub with
  | nil => simp [plug, parentOf, Framed]
  | cons l ls ih =>
    rw [plug, ih, linked_node, Framed, show (Shape.node l.id (l.left ++ sub :: l.right)).id = l.id
      from rfl]
    simp only [List.map_append, List.map_cons, List.mem_append, List.mem_cons, or_imp, forall_and,
      forall_eq, parentOf]
    tauto

theorem Framed.congr {below : Nat} (h : t.Framed parent ls below)
    (heq : ∀ id ∈ outer ls, ∀ slot, t.slots[id]? = some slot → ∃ slot', t'.slots[id]? = some slot'
      ∧ slot'.parent = slot.parent ∧ slot'.children = slot.children) : t'.Framed parent ls below := by
  induction ls generalizing below with
  | nil => trivial
  | cons l ls ih =>
    obtain ⟨⟨slot, hslot, hparent, hchildren⟩, hbeside, hrest⟩ := h
    simp only [mem_outer_cons] at heq
    refine ⟨?_, fun c hc => ?_, ih hrest fun id hid => heq id (.inr (.inr hid))⟩
    · obtain ⟨slot', hslot', h₁, h₂⟩ := heq l.id (.inl rfl) slot hslot
      exact ⟨slot', hslot', h₁.trans hparent, h₂.trans hchildren⟩
    · exact (hbeside c hc).congr fun id hid => heq id (.inr (.inl ⟨c, hc, hid⟩))

/-- Following the parents finds the levels. -/
theorem upwards_parentOf {below fuel : Nat} (h : t.Framed none ls below) (hfuel : ls.length ≤ fuel) :
    t.upwards fuel (parentOf none ls) = ls.map Level.id := by
  induction ls generalizing below fuel with
  | nil => cases fuel <;> rfl
  | cons l ls ih =>
    obtain ⟨⟨slot, hslot, hparent, -⟩, -, hrest⟩ := h
    obtain ⟨fuel, rfl⟩ : ∃ k, fuel = k + 1 := ⟨fuel - 1, by simp at hfuel; omega⟩
    have hup : t.parent? l.id = parentOf none ls := by
      simp only [Tree.parent?, hslot, Option.bind_some, hparent]
    rw [parentOf, upwards, hup, ih hrest (by simpa using hfuel), List.map_cons]

theorem Linked.parent?_eq (h : t.Linked parent sub) : t.parent? sub.id = parent := by
  cases sub with
  | node id children =>
    obtain ⟨⟨slot, hslot, hparent, -⟩, -⟩ := linked_node.1 h
    simp only [Tree.parent?, Shape.id, hslot, Option.bind_some, hparent]

theorem Linked.children_eq (h : t.Linked parent sub) :
    t.children sub.id = sub.children.map Shape.id := by
  cases sub with
  | node id children =>
    obtain ⟨⟨slot, hslot, -, hchildren⟩, -⟩ := linked_node.1 h
    simp only [Tree.children, Shape.id, Shape.children, hslot, Option.map_some, Option.getD_some,
      hchildren]

namespace Arranged

variable {sh : Shape}

/-- There are fewer levels than slots. -/
theorem length_lt (h : t.Arranged (plug ls sub)) : ls.length < t.slots.size := by
  have hlen := h.perm.length_eq
  rw [List.length_append, List.length_range, (ids_plug ls sub).length_eq, List.length_append] at hlen
  have hsub : 0 < sub.ids.length := List.length_pos_of_mem sub.id_mem_ids
  have houter := length_le_outer ls
  omega

/-- What stands at a place is not higher than there are slots. -/
theorem height_le_of_plug (h : t.Arranged (plug ls sub)) : sub.height ≤ t.slots.size := by
  have hlen := h.perm.length_eq
  rw [List.length_append, List.length_range, (ids_plug ls sub).length_eq, List.length_append] at hlen
  have := sub.height_le_length
  omega

/-- The ancestors of a node are the levels above its place. -/
theorem ancestors_eq (h : t.Arranged (plug ls sub)) : t.ancestors sub.id = ls.map Level.id := by
  obtain ⟨hsub, hframed⟩ := linked_plug.1 h.linked
  unfold ancestors
  rw [hsub.parent?_eq]
  exact upwards_parentOf hframed (Nat.le_of_lt h.length_lt)

theorem lineage?_eq (h : t.Arranged (plug ls sub)) :
    t.lineage? sub.id = some (sub.id :: ls.map Level.id) := by
  obtain ⟨hsub, hframed⟩ := linked_plug.1 h.linked
  have hlt := h.lt_size (mem_ids_plug.2 (.inl sub.id_mem_ids))
  unfold lineage?
  rw [if_pos hlt, upwards, hsub.parent?_eq, upwards_parentOf hframed (Nat.le_of_lt h.length_lt)]

end Arranged

end Tree

end Packrat
