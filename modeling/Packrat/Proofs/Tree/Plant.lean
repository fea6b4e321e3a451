import Packrat.Proofs.Tree.Shape
import Mathlib.Data.List.Range

/-!
Planting a tree into slots.

The slots of the descendants are handed out in preorder: first those that have become free, then new
ones (`supply`).  Planting touches these slots and the one it is given, and no other; there it leaves
what the planted tree says (`Tree.plant_spec`).  A fresh tree is therefore arranged, and reading it
gives back the tree that was planted (`Tree.arranged_ofSubtree`, `Tree.asSubtree_ofSubtree`).
-/

namespace Packrat

/-- The next `n` numbers that are handed out. -/
def supply (free : List Nat) (size n : Nat) : List Nat :=
  free.take n ++ List.range' size (n - free.length)

theorem supply_zero (free : List Nat) (size : Nat) : supply free size 0 = [] := by simp [supply]

/-- Handing out goes on where it has stopped. -/
theorem supply_add (free : List Nat) (size m n : Nat) :
    supply free size (m + n)
      = supply free size m ++ supply (free.drop m) (size + (m - free.length)) n := by
  unfold supply
  rw [List.take_add, List.length_drop]
  rcases Nat.le_total m free.length with hle | hge
  · have h₁ : m - free.length = 0 := by omega
    have h₂ : m + n - free.length = n - (free.length - m) := by omega
    rw [h₁, h₂]
    simp
  · have h₁ : free.drop m = [] := List.drop_eq_nil_of_le hge
    have h₂ : m + n - free.length = (m - free.length) + n := by omega
    rw [h₁, h₂, Nat.sub_eq_zero_of_le hge, Nat.sub_zero, List.take_nil, List.append_nil,
      List.nil_append, List.append_assoc, List.range'_append_1]

theorem mem_supply {free : List Nat} {size n j : Nat} (h : j ∈ supply free size n) :
    j ∈ free.take n ∨ (size ≤ j ∧ j < size + (n - free.length)) := by
  simpa [supply] using h

mutual

/-- The stretch that covers everything examined for a tree. -/
def Subtree.extent : Subtree → Extent
  | .node info children => Subtree.extentAll (.ofFootprint info.reads) children

def Subtree.extentAll (x : Extent) : List Subtree → Extent
  | [] => x
  | s :: ss => Subtree.extentAll (x.cover s.extent) ss

end

namespace Subtree

theorem size_pos (s : Subtree) : 0 < s.size := by
  cases s with
  | node info children => rw [size]; omega

end Subtree

namespace Tree

/-- The slot of a planted node. -/
def plantedSlot (version : Nat) (parent : Option Nat) (info : NodeInfo) (children : List Nat)
    (extent : Extent) : Slot :=
  { info, parent, children, extent, seen := version }

mutual

/-- The slots of a shape are those of a planted tree. -/
def Grown (t : Tree) (version : Nat) (parent : Option Nat) : Shape → Subtree → Prop
  | .node id shs, .node info children =>
    t.slots[id]? = some (plantedSlot version parent info (shs.map Shape.id)
      (Subtree.extent (.node info children))) ∧ GrownAll t version id shs children

def GrownAll (t : Tree) (version : Nat) (parent : Nat) : List Shape → List Subtree → Prop
  | [], [] => True
  | sh :: shs, s :: ss => Grown t version (some parent) sh s ∧ GrownAll t version parent shs ss
  | _, _ => False

end

section Grown

variable {t t' : Tree} {version : Nat}

mutual

/-- Only the slots of the shape matter. -/
theorem Grown.congr : ∀ {sh : Shape} {s : Subtree} {parent : Option Nat},
    t.Grown version parent sh s → (∀ j ∈ sh.ids, t'.slots[j]? = t.slots[j]?) →
    t'.Grown version parent sh s
  | .node id shs, .node info children, parent, h, heq => by
    rw [Grown] at h ⊢
    rw [Shape.ids] at heq
    exact ⟨(heq id (by simp)).trans h.1, GrownAll.congr h.2 fun j hj => heq j (by simp [hj])⟩

theorem GrownAll.congr : ∀ {shs : List Shape} {ss : List Subtree} {parent : Nat},
    t.GrownAll version parent shs ss → (∀ j ∈ Shape.idsAll shs, t'.slots[j]? = t.slots[j]?) →
    t'.GrownAll version parent shs ss
  | [], [], _, h, _ => h
  | sh :: shs, s :: ss, parent, h, heq => by
    rw [GrownAll] at h ⊢
    rw [Shape.idsAll] at heq
    exact ⟨Grown.congr h.1 fun j hj => heq j (by simp [hj]),
      GrownAll.congr h.2 fun j hj => heq j (by simp [hj])⟩
  | [], _ :: _, _, h, _ => by simp [GrownAll] at h
  | _ :: _, [], _, h, _ => by simp [GrownAll] at h

end

mutual

theorem Grown.linked : ∀ {sh : Shape} {s : Subtree} {parent : Option Nat},
    t.Grown version parent sh s → t.Linked parent sh
  | .node id shs, .node info children, parent, h => by
    rw [Grown] at h
    exact linked_node.2 ⟨⟨_, h.1, rfl, rfl⟩, GrownAll.linked h.2⟩

theorem GrownAll.linked : ∀ {shs : List Shape} {ss : List Subtree} {parent : Nat},
    t.GrownAll version parent shs ss → ∀ sh ∈ shs, t.Linked (some parent) sh
  | [], [], _, _ => by simp
  | sh :: shs, s :: ss, parent, h => by
    rw [GrownAll] at h
    intro sh' hsh'
    rcases List.mem_cons.1 hsh' with heq | hsh'
    · exact heq ▸ Grown.linked h.1
    · exact GrownAll.linked h.2 sh' hsh'
  | [], _ :: _, _, h => by simp [GrownAll] at h
  | _ :: _, [], _, h => by simp [GrownAll] at h

end

mutual

/-- The slots of a planted tree have seen what there was to see. -/
theorem Grown.seen_eq : ∀ {sh : Shape} {s : Subtree} {parent : Option Nat},
    t.Grown version parent sh s → ∀ {j : Nat} {slot : Slot}, j ∈ sh.ids →
    t.slots[j]? = some slot → slot.seen = version
  | .node id shs, .node info children, parent, h, j, slot, hj, hslot => by
    rw [Grown] at h
    rw [Shape.ids] at hj
    rcases List.mem_cons.1 hj with rfl | hj
    · cases h.1.symm.trans hslot
      rfl
    · exact GrownAll.seen_eq h.2 hj hslot

theorem GrownAll.seen_eq : ∀ {shs : List Shape} {ss : List Subtree} {parent : Nat},
    t.GrownAll version parent shs ss → ∀ {j : Nat} {slot : Slot}, j ∈ Shape.idsAll shs →
    t.slots[j]? = some slot → slot.seen = version
  | [], [], _, _, _, _, hj, _ => by simp [Shape.idsAll] at hj
  | sh :: shs, s :: ss, parent, h, j, slot, hj, hslot => by
    rw [GrownAll] at h
    rw [Shape.idsAll] at hj
    rcases List.mem_append.1 hj with hj | hj
    · exact Grown.seen_eq h.1 hj hslot
    · exact GrownAll.seen_eq h.2 hj hslot
  | [], _ :: _, _, h, _, _, _, _ => by simp [GrownAll] at h
  | _ :: _, [], _, h, _, _, _, _ => by simp [GrownAll] at h

end

mutual

/-- A tree that was planted just now is the one that is read. -/
theorem Grown.subtree_eq (hversion : version = t.version) : ∀ {sh : Shape} {s : Subtree}
    {parent : Option Nat}, t.Grown version parent sh s → t.subtree sh = s
  | .node id shs, .node info children, parent, h => by
    rw [Grown] at h
    have hinfo : t.infoAt id = info := by
      simp only [infoAt, node?, h.1, Option.map_some, Option.getD_some]
      rw [current_of_seen (by exact hversion)]
      rfl
    rw [subtree, hinfo, GrownAll.subtreeAll_eq hversion h.2]

theorem GrownAll.subtreeAll_eq (hversion : version = t.version) : ∀ {shs : List Shape}
    {ss : List Subtree} {parent : Nat}, t.GrownAll version parent shs ss → t.subtreeAll shs = ss
  | [], [], _, _ => by rw [subtreeAll]
  | sh :: shs, s :: ss, parent, h => by
    rw [GrownAll] at h
    rw [subtreeAll, Grown.subtree_eq hversion h.1, GrownAll.subtreeAll_eq hversion h.2]
  | [], _ :: _, _, h => by simp [GrownAll] at h
  | _ :: _, [], _, h => by simp [GrownAll] at h

end

end Grown

/-! ### What planting does -/

/-- The slots that can be handed out: distinct and not beyond the last one. -/
structure Supplies (t : Tree) : Prop where
  nodup : t.free.Nodup
  lt_size : ∀ j ∈ t.free, j < t.slots.size

/-- How handing out `n` slots changes a tree, apart from what stands in the slots. -/
structure HandedOut (t t' : Tree) (n : Nat) : Prop where
  same : t' = { t with slots := t'.slots, free := t'.free }
  free : t'.free = t.free.drop n
  size : t'.slots.size = t.slots.size + (n - t.free.length)

namespace HandedOut

variable {t t₁ t₂ : Tree} {m n : Nat}

theorem trans (h : HandedOut t t₁ m) (h' : HandedOut t₁ t₂ n) : HandedOut t t₂ (m + n) where
  same := by rw [h'.same, h.same]
  free := by rw [h'.free, h.free, List.drop_drop]
  size := by rw [h'.size, h.size, h.free, List.length_drop]; omega

theorem supplies (h : HandedOut t t₁ n) (hs : t.Supplies) : t₁.Supplies where
  nodup := by rw [h.free]; exact hs.nodup.sublist (List.drop_sublist n t.free)
  lt_size := by
    intro j hj
    rw [h.free] at hj
    have := hs.lt_size j (List.mem_of_mem_drop hj)
    rw [h.size]
    omega

theorem version_eq (h : HandedOut t t₁ n) : t₁.version = t.version := by rw [h.same]; rfl

theorem supply_eq (h : HandedOut t t₁ m) :
    supply t.free t.slots.size (m + n)
      = supply t.free t.slots.size m ++ supply t₁.free t₁.slots.size n := by
  rw [supply_add, h.free, h.size]

end HandedOut

theorem allocate_spec (t : Tree) :
    HandedOut t t.allocate.2 1 ∧ supply t.free t.slots.size 1 = [t.allocate.1]
      ∧ ∀ j, j ≠ t.allocate.1 → t.allocate.2.slots[j]? = t.slots[j]? := by
  unfold allocate supply
  cases hfree : t.free with
  | nil =>
    dsimp only
    refine ⟨⟨rfl, by simp [hfree], by simp [hfree]⟩, by simp, fun j hj => ?_⟩
    rw [Array.getElem?_push, if_neg hj]
  | cons id rest =>
    dsimp only
    exact ⟨⟨rfl, by simp [hfree], by simp [hfree]⟩, by simp, fun j _ => rfl⟩

/-- A number that is in use is not handed out. -/
theorem not_mem_supply {t : Tree} {id n : Nat} (hid : id < t.slots.size) (hfree : id ∉ t.free) :
    id ∉ supply t.free t.slots.size n := by
  intro h
  rcases mem_supply h with h | h
  · exact hfree (List.mem_of_mem_take h)
  · omega

/-- A number that has been handed out is in use. -/
theorem HandedOut.in_use {t t₁ : Tree} {n j : Nat} (h : HandedOut t t₁ n) (hs : t.Supplies)
    (hj : j ∈ supply t.free t.slots.size n) : j < t₁.slots.size ∧ j ∉ t₁.free := by
  rw [h.size, h.free]
  rcases mem_supply hj with hj | ⟨hge, hlt⟩
  · have hnodup := hs.nodup
    rw [← List.take_append_drop n t.free, List.nodup_append] at hnodup
    exact ⟨Nat.lt_add_right _ (hs.lt_size j (List.mem_of_mem_take hj)),
      fun hdrop => hnodup.2.2 j hj j hdrop rfl⟩
  · refine ⟨hlt, fun hdrop => ?_⟩
    have := hs.lt_size j (List.mem_of_mem_drop hdrop)
    omega

/-- A planted node covers everything that was examined for it. -/
theorem Grown.extent_eq {t : Tree} {version : Nat} {parent : Option Nat} {sh : Shape} {s : Subtree}
    (h : t.Grown version parent sh s) : ((t.slots[sh.id]?).map (·.extent)).getD {} = s.extent := by
  cases sh with
  | node id shs =>
    cases s with
    | node info children =>
      rw [Grown] at h
      rw [show (Shape.node id shs).id = id from rfl, h.1]
      rfl

theorem getElem?_planted (t : Tree) {id : Nat} (hid : id < t.slots.size) (slot : Slot) (j : Nat) :
    (t.slots.setIfInBounds id slot)[j]? = if id = j then some slot else t.slots[j]? := by
  rw [Array.getElem?_setIfInBounds]
  split <;> rfl

theorem plant_node (t : Tree) (parent : Option Nat) (id : Nat) (info : NodeInfo)
    (children : List Subtree) :
    t.plant parent id (.node info children)
      = plantBelow { t with
          slots := t.slots.setIfInBounds id (plantedSlot t.version parent info [] {}) }
        id [] (.ofFootprint info.reads) children := by
  rw [plant]
  rfl

mutual

theorem source_plant : ∀ (s : Subtree) (t : Tree) (parent : Option Nat) (id : Nat),
    (t.plant parent id s).source = t.source
  | .node info children, t, parent, id => by
    rw [plant_node]
    exact source_plantBelow children _ id [] _

theorem source_plantBelow : ∀ (ss : List Subtree) (t : Tree) (id : Nat) (planted : List Nat)
    (extent : Extent), (t.plantBelow id planted extent ss).source = t.source
  | [], t, id, planted, extent => by rw [plantBelow]
  | s :: ss, t, id, planted, extent => by
    have halloc : t.allocate.2.source = t.source := by
      unfold allocate
      split <;> rfl
    rw [plantBelow]
    dsimp only
    rw [source_plantBelow ss, source_plant s, halloc]

end

mutual

/-- Planting a tree: the numbers are those that are handed out, the slots hold the tree, and all
other slots stay as they are. -/
theorem plant_spec : ∀ (s : Subtree) (t : Tree) (parent : Option Nat) (id : Nat), t.Supplies →
    id < t.slots.size → id ∉ t.free → ∃ sh : Shape, sh.id = id
      ∧ sh.ids = id :: supply t.free t.slots.size (s.size - 1)
      ∧ HandedOut t (t.plant parent id s) (s.size - 1)
      ∧ (t.plant parent id s).Grown t.version parent sh s
      ∧ ∀ j, j ∉ sh.ids → (t.plant parent id s).slots[j]? = t.slots[j]?
  | .node info children, t, parent, id, hs, hid, hfree => by
    rw [plant_node]
    generalize ht₁ : ({ t with
      slots := t.slots.setIfInBounds id (plantedSlot t.version parent info [] {}) } : Tree) = t₁
    have hhand : HandedOut t t₁ 0 := by
      subst ht₁
      exact ⟨rfl, by simp, by simp⟩
    have hslot : ∀ j, t₁.slots[j]?
        = if id = j then some (plantedSlot t.version parent info [] {}) else t.slots[j]? := by
      subst ht₁
      exact fun j => getElem?_planted t hid _ j
    have hsize : t₁.slots.size = t.slots.size := hhand.size.trans (by simp)
    have hfree₁ : t₁.free = t.free := hhand.free.trans (by simp)
    obtain ⟨shs, hids, hhand', hgrown, hself, hother⟩ := plantBelow_spec children t₁ id []
      (.ofFootprint info.reads) (plantedSlot t.version parent info [] {}) (hhand.supplies hs)
      (by rw [hsize]; exact hid) (by rw [hfree₁]; exact hfree) (by rw [hslot, if_pos rfl])
    rw [Subtree.size, Nat.add_sub_cancel]
    have hids' : (Shape.node id shs).ids = id :: supply t.free t.slots.size
        (Subtree.sizeAll children) := by
      rw [Shape.ids, hids, hsize, hfree₁]
    refine ⟨.node id shs, rfl, hids', by simpa using hhand.trans hhand', ?_, fun j hj => ?_⟩
    · rw [Grown]
      refine ⟨hself.trans ?_, hhand.version_eq ▸ hgrown⟩
      simp only [plantedSlot, List.reverse_nil, List.nil_append, Subtree.extent]
    · rw [Shape.ids, List.mem_cons, not_or] at hj
      rw [hother j hj.1 hj.2, hslot, if_neg fun h => hj.1 h.symm]

/-- Planting trees below a node. -/
theorem plantBelow_spec : ∀ (ss : List Subtree) (t : Tree) (id : Nat) (planted : List Nat)
    (extent : Extent) (slot : Slot), t.Supplies → id < t.slots.size → id ∉ t.free →
    t.slots[id]? = some slot → ∃ shs : List Shape,
      Shape.idsAll shs = supply t.free t.slots.size (Subtree.sizeAll ss)
      ∧ HandedOut t (t.plantBelow id planted extent ss) (Subtree.sizeAll ss)
      ∧ (t.plantBelow id planted extent ss).GrownAll t.version id shs ss
      ∧ (t.plantBelow id planted extent ss).slots[id]? = some { slot with
          children := planted.reverse ++ shs.map Shape.id, extent := Subtree.extentAll extent ss }
      ∧ ∀ j, j ≠ id → j ∉ Shape.idsAll shs →
          (t.plantBelow id planted extent ss).slots[j]? = t.slots[j]?
  | [], t, id, planted, extent, slot, hs, hid, hfree, hslot => by
    rw [plantBelow, Subtree.sizeAll, supply_zero, Subtree.extentAll]
    refine ⟨[], by rw [Shape.idsAll], ⟨rfl, by simp, by simp⟩, by simp [GrownAll], ?_, ?_⟩
    · simp [Array.getElem?_modify, hslot]
    · intro j hj _
      rw [Array.getElem?_modify, if_neg (Ne.symm hj)]
  | s :: rest, t, id, planted, extent, slot, hs, hid, hfree, hslot => by
    rw [plantBelow]
    dsimp only
    obtain ⟨hhand₁, hchild, hother₁⟩ := allocate_spec t
    generalize t.allocate.1 = child at hchild hother₁ ⊢
    generalize t.allocate.2 = t₁ at hhand₁ hother₁ ⊢
    -- the child is none of the numbers that are still to be handed out, and not the parent
    have hin : child ∈ supply t.free t.slots.size 1 := by rw [hchild]; simp
    obtain ⟨hlt, hfree₁⟩ := hhand₁.in_use hs hin
    have hne : id ≠ child := by
      rintro rfl
      exact not_mem_supply hid hfree hin
    obtain ⟨sh, hshid, hshids, hhand₂, hgrown₂, hother₂⟩ :=
      plant_spec s t₁ (some id) child (hhand₁.supplies hs) hlt hfree₁
    generalize t₁.plant (some id) child s = t₂ at hhand₂ hgrown₂ hother₂ ⊢
    have hhand₁₂ := hhand₁.trans hhand₂
    have hsize : 1 + (s.size - 1) = s.size := by have := s.size_pos; omega
    rw [hsize] at hhand₁₂
    have hshids' : sh.ids = supply t.free t.slots.size s.size := by
      rw [← hsize, hhand₁.supply_eq, hchild, hshids]
      rfl
    have hid₂ : id ∉ sh.ids := by rw [hshids']; exact not_mem_supply hid hfree
    have hslot₂ : t₂.slots[id]? = some slot := by rw [hother₂ id hid₂, hother₁ id hne, hslot]
    have hbelow := hgrown₂.extent_eq
    rw [hshid] at hbelow
    rw [hbelow]
    obtain ⟨shs, hids₃, hhand₃, hgrown₃, hself₃, hother₃⟩ := plantBelow_spec rest t₂ id
      (child :: planted) (extent.cover s.extent) slot (hhand₁₂.supplies hs)
      (by rw [hhand₁₂.size]; omega)
      (by rw [hhand₁₂.free]; exact fun h => hfree (List.mem_of_mem_drop h)) hslot₂
    refine ⟨sh :: shs, ?_, ?_, ?_, ?_, ?_⟩
    · rw [Shape.idsAll, hids₃, hshids', Subtree.sizeAll, hhand₁₂.supply_eq]
    · rw [Subtree.sizeAll]
      exact hhand₁₂.trans hhand₃
    · rw [GrownAll]
      refine ⟨?_, hhand₁₂.version_eq ▸ hgrown₃⟩
      rw [← hhand₁.version_eq]
      refine Grown.congr hgrown₂ fun j hj => hother₃ j (fun h => hid₂ (h ▸ hj)) ?_
      -- what is planted next stands in other slots
      obtain ⟨hlt, hfree⟩ := hhand₁₂.in_use hs (hshids' ▸ hj)
      rw [hids₃]
      exact not_mem_supply hlt hfree
    · rw [hself₃, Subtree.extentAll]
      simp [hshid]
    · intro j hj hjids
      rw [Shape.idsAll, List.mem_append, not_or] at hjids
      rw [hother₃ j hj hjids.2, hother₂ j hjids.1, hother₁ j]
      rintro rfl
      exact hjids.1 (hshid ▸ sh.id_mem_ids)

end

/-! ### Fresh trees -/

/-- A fresh tree is arranged, its nodes numbered in preorder, and its slots hold the tree. -/
theorem ofSubtree_spec (source : Source) (reads : Footprint) (s : Subtree) :
    ∃ sh : Shape, sh.ids = List.range s.size ∧ (ofSubtree source reads s).Arranged sh
      ∧ (ofSubtree source reads s).Grown 0 none sh s := by
  obtain ⟨sh, hid, hids, hhand, hgrown, -⟩ := plant_spec s
    { source, documentReads := reads, slots := #[{}] } none 0 ⟨.nil, by simp⟩ (by simp) (by simp)
  have hsize := s.size_pos
  have hids' : sh.ids = List.range s.size := by
    rw [hids, List.range_eq_range']
    simp only [supply, List.take_nil, List.nil_append, List.length_nil, Nat.sub_zero]
    rw [show s.size = s.size - 1 + 1 by omega, List.range'_succ]
    rfl
  have hcount : (ofSubtree source reads s).slots.size = s.size := by
    have := hhand.size
    unfold ofSubtree
    rw [this]
    simp only [List.size_toArray, List.length_cons, List.length_nil]
    omega
  have hfree : (ofSubtree source reads s).free = [] := by
    unfold ofSubtree
    rw [hhand.free, List.drop_nil]
  have hroot : (ofSubtree source reads s).root = 0 := congrArg Tree.root hhand.same
  have hbase : (ofSubtree source reads s).base = 0 := congrArg Tree.base hhand.same
  refine ⟨sh, hids', ⟨hid.trans hroot.symm, hgrown.linked, ?_, ?_⟩, hgrown⟩
  · rw [hfree, List.append_nil, hids', hcount]
  · intro slot hslot
    obtain ⟨j, hj, rfl⟩ := Array.mem_iff_getElem.1 hslot
    have hseen : (ofSubtree source reads s).slots[j].seen = 0 :=
      hgrown.seen_eq (by rw [hids', List.mem_range, ← hcount]; exact hj)
        (Array.getElem?_eq_getElem hj)
    rw [hseen, hbase]
    exact ⟨Nat.le_refl 0, Nat.zero_le _⟩

/-- Apart from the slots, a fresh tree is what it was told to be. -/
theorem ofSubtree_same (source : Source) (reads : Footprint) (s : Subtree) :
    ∃ slots free, ofSubtree source reads s = { source, documentReads := reads, slots, free } := by
  obtain ⟨-, -, -, hhand, -, -⟩ := plant_spec s
    { source, documentReads := reads, slots := #[{}] } none 0 ⟨.nil, by simp⟩ (by simp) (by simp)
  exact ⟨_, _, hhand.same⟩

theorem source_ofSubtree (source : Source) (reads : Footprint) (s : Subtree) :
    (ofSubtree source reads s).source = source := by
  obtain ⟨_, _, h⟩ := ofSubtree_same source reads s
  rw [h]

theorem documentReads_ofSubtree (source : Source) (reads : Footprint) (s : Subtree) :
    (ofSubtree source reads s).documentReads = reads := by
  obtain ⟨_, _, h⟩ := ofSubtree_same source reads s
  rw [h]

theorem version_ofSubtree (source : Source) (reads : Footprint) (s : Subtree) :
    (ofSubtree source reads s).version = 0 := by
  obtain ⟨_, _, h⟩ := ofSubtree_same source reads s
  rw [h]
  rfl

/-- Reading a fresh tree gives back the tree it was made of. -/
theorem asSubtree_ofSubtree (source : Source) (reads : Footprint) (s : Subtree) :
    (ofSubtree source reads s).asSubtree = s := by
  obtain ⟨sh, -, harranged, hgrown⟩ := ofSubtree_spec source reads s
  rw [harranged.asSubtree_eq]
  exact hgrown.subtree_eq (version_ofSubtree source reads s).symm

end Tree

end Packrat
