import Packrat.Proofs.Text.Edits
import Packrat.Proofs.Tree.Readers

/-!
What a patch does to the nodes that it does not replace.

The slots of these nodes are not touched or brought up to date at once (`Tree.Grafted`); either way the
node is seen with its offsets carried along with the edit (`NodeInfo.Displaced`), as long as the nodes
above the patch end behind the edit.  Line, column and the date of a slot are left aside here
(`Slot.core`).
-/

namespace Packrat

/-- Where an offset is found after an edit. -/
def Edit.carry (e : Edit) (x : Nat) : Nat := Offset.shift x e.offset e.stop e.delta

/-- A node after an edit: its offsets have been carried along, and it is the same otherwise. -/
structure NodeInfo.Displaced (e : Edit) (i i' : NodeInfo) : Prop where
  type : i'.type = i.type
  value : i'.value = i.value
  start : i'.start = e.carry i.start
  stop : i'.stop = e.carry i.stop
  invoked : i'.invoked = e.carry i.invoked
  reads : i'.reads = i.reads.shift e.offset e.stop e.delta
  rule : i'.rule = i.rule

namespace Slot

/-- A slot without what depends on when it was last looked at. -/
def core (s : Slot) : Slot :=
  { s with info := { s.info with line := 0, column := 0 }, seen := 0 }

theorem core_foldl_shift (ds : List Shift) (s : Slot) :
    (ds.foldl Slot.shift s).core = ds.foldl Slot.shift s.core := by
  induction ds generalizing s with
  | nil => rfl
  | cons d ds ih => exact ih (s.shift d)

/-- Slots with the same core up to a displacement. -/
theorem displaced_of_core {e : Edit} {s s' : Slot} (h : s'.core = s.core.shift (.ofEdit e)) :
    s.info.Displaced e s'.info ∧ s'.extent = ⟨e.carry s.extent.start, e.carry s.extent.stop⟩ := by
  have hinfo := congrArg Slot.info h
  exact ⟨⟨(congrArg NodeInfo.type hinfo).trans rfl, (congrArg NodeInfo.value hinfo).trans rfl,
    congrArg NodeInfo.start hinfo, congrArg NodeInfo.stop hinfo,
    congrArg NodeInfo.invoked hinfo, congrArg NodeInfo.reads hinfo,
    (congrArg NodeInfo.rule hinfo).trans rfl⟩,
    congrArg Slot.extent h⟩

end Slot

namespace Tree

open Shape

variable {t g : Tree} {s : Slot}

/-- A slot that has caught up has seen the rest of the log. -/
theorem core_current (h : t.base ≤ s.seen) :
    (t.current s).core = (t.pending.toList.drop (s.seen - t.base)).foldl Slot.shift s.core := by
  have hlog : (t.pending.extract (s.seen - t.base) t.pending.size).toList
      = t.pending.toList.drop (s.seen - t.base) := by
    rw [Array.toList_extract, List.extract_eq_take_drop, List.take_of_length_le (by simp)]
  have hmoved : ((t.pending.extract (s.seen - t.base) t.pending.size).foldl Slot.shift s).core
      = (t.pending.toList.drop (s.seen - t.base)).foldl Slot.shift s.core := by
    rw [← Array.foldl_toList, hlog, Slot.core_foldl_shift]
  unfold current
  split
  · next heq =>
    rw [List.drop_of_length_le]
    · rfl
    · unfold version at heq
      rw [Array.length_toList]
      omega
  · dsimp only
    split
    · exact hmoved
    · exact hmoved

/-- One more displacement in the log. -/
theorem core_current_push {d : Shift} (hpending : g.pending = t.pending.push d)
    (hbase : g.base = t.base) (h : t.base ≤ s.seen) (h' : s.seen ≤ t.version) :
    (g.current s).core = (t.current s).core.shift d := by
  rw [core_current h, core_current (by omega), hpending, hbase, Array.toList_push,
    List.drop_append_of_le_length, List.foldl_append]
  · rfl
  · unfold version at h'
    rw [Array.length_toList]
    omega

theorem extentAt_of_node? {id : Nat} (h : t.node? id = some s) : t.extentAt id = s.extent := by
  unfold extentAt
  rw [h]
  rfl

namespace Grafted

variable {ls : List Level} {sub sub' : Shape} {replacement : Subtree} {e : Edit}

/-- A node beside the way down to the patch learns of the edit from the log. -/
theorem beside_displaced (hg : Grafted t ls sub replacement e g sub')
    (h : t.Arranged (plug ls sub)) {j : Nat} (hj : j ∈ outer ls) (hne : ∀ l ∈ ls, l.id ≠ j) :
    (t.infoAt j).Displaced e (g.infoAt j)
      ∧ g.extentAt j = ⟨e.carry (t.extentAt j).start, e.carry (t.extentAt j).stop⟩ := by
  have hlt : j < t.slots.size := h.lt_size (mem_ids_plug.2 (.inr hj))
  have hslot : t.slots[j]? = some t.slots[j] := Array.getElem?_eq_getElem hlt
  have hgslot : g.slots[j]? = some t.slots[j] := (hg.beside j hj hne).trans hslot
  obtain ⟨h₁, h₂⟩ := h.seen t.slots[j] (Array.getElem_mem hlt)
  rw [infoAt_of_node? (node?_eq_some hslot), infoAt_of_node? (node?_eq_some hgslot),
    extentAt_of_node? (node?_eq_some hslot), extentAt_of_node? (node?_eq_some hgslot)]
  exact Slot.displaced_of_core (core_current_push hg.pending hg.base h₁ h₂)

/-- A node above the patch is brought up to date at once; its end is carried along as well, if it lies
behind the edit. -/
theorem level_displaced (hg : Grafted t ls sub replacement e g sub') {l : Level} (hl : l ∈ ls)
    (hlt : e.offset < (t.infoAt l.id).stop) (hle : e.stop ≤ (t.infoAt l.id).stop) :
    (t.infoAt l.id).Displaced e (g.infoAt l.id)
      ∧ g.extentAt l.id = Extent.cover ⟨e.carry (t.extentAt l.id).start, e.carry (t.extentAt l.id).stop⟩
          replacement.extent := by
  obtain ⟨s, hs, hslot⟩ := hg.level l hl
  have hnode := node?_eq_some hslot
  rw [current_of_seen (by exact rfl)] at hnode
  rw [infoAt_of_node? hs] at hlt hle
  rw [infoAt_of_node? hs, infoAt_of_node? hnode, extentAt_of_node? hs, extentAt_of_node? hnode]
  refine ⟨⟨rfl, rfl, rfl, ?_, rfl, rfl, rfl⟩, rfl⟩
  exact (Offset.shift_of_behind ⟨hlt, hle⟩).symm

end Grafted

end Tree

end Packrat
