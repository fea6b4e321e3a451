import Packrat.Proofs.Parse.Layout
import Packrat.Proofs.Text.Sources
import Packrat.Proofs.Text.Trails
import Packrat.Proofs.Tree.Firm

/-!
The positions that a live tree reports.

A node that catches up with the log looks its line and column up anew only if its start has moved.
So what it reports is the position that its start had in some text that the tree has gone through
since the tree was made, from which on the edits have left the start in place, all of them taken
together (`Slot.Dated`).  Whether that is the position in the present text is another question: edits
in front of a node can change the lines and leave the length of the text as it was.  It is if the
trail of the tree is steady (`Slot.Dated.current`).

All operations on a live tree keep this so: letting nodes catch up (`Tree.Positioned.sameView`), emptying
the log (`Tree.Positioned.compact`) and patching an edit into the tree (`Tree.Positioned.graft`).  A
patch places the new nodes and those above them at once; an edit does not touch the start of any other
node, since nobody outside of the new nodes has examined the edited stretch.
-/

namespace Packrat

/-! ### Slots -/

namespace Slot

/-- The position of the node is the one that its start had when the first `k` edits had been made; the
start lay in the text then, and the other edits have not replaced it and leave it, taken together, in
place. -/
def Dated (r : Trail) (s : Slot) : Prop :=
  ∃ k ≤ r.edits.length, s.info.start ≤ (r.take k).last.size
    ∧ Edit.SparedAll s.info.start (r.edits.drop k)
    ∧ Offset.after s.info.start (r.edits.drop k) = s.info.start
    ∧ s.info.line = (r.take k).last.line s.info.start
    ∧ s.info.column = (r.take k).last.column s.info.start

variable {r : Trail} {s : Slot}

/-- In a steady trail a date does not matter. -/
theorem Dated.current (h : s.Dated r) (hsteady : r.Steady) :
    s.info.line = r.last.line s.info.start ∧ s.info.column = r.last.column s.info.start := by
  obtain ⟨k, hk, hle, hspared, hstays, hline, hcolumn⟩ := h
  obtain ⟨hline', hcolumn'⟩ := hsteady k hk s.info.start hle hspared hstays
  exact ⟨hline.trans hline'.symm, hcolumn.trans hcolumn'.symm⟩

theorem Dated.start_le (h : s.Dated r) (hfits : Edit.FitAll r.text r.edits) :
    s.info.start ≤ r.last.size := by
  obtain ⟨k, -, hle, hspared, hstays, -⟩ := h
  have := (hfits.drop k).after_le_size hspared hle
  rwa [hstays, show (r.text.after (r.edits.take k)).after (r.edits.drop k) = r.last from r.last_take k]
    at this

/-- A slot whose position has just been looked up. -/
theorem dated_of_position (hsize : r.last.size < Text.maxSize) (hle : s.info.start ≤ r.last.size)
    (h : (s.info.line, s.info.column) = (LineTable.ofText r.last).position s.info.start) : s.Dated r := by
  rw [LineTable.position_ofText (by simp only [Text.maxSize, Offset.count] at *; omega),
    Prod.mk.injEq] at h
  refine ⟨r.edits.length, Nat.le_refl _, ?_⟩
  rw [Trail.take_length, List.drop_length]
  exact ⟨hle, trivial, rfl, h⟩

theorem foldl_shift_info (fs : List Edit) (s : Slot) :
    ((fs.map Shift.ofEdit).foldl Slot.shift s).info.start = Offset.after s.info.start fs
      ∧ ((fs.map Shift.ofEdit).foldl Slot.shift s).info.line = s.info.line
      ∧ ((fs.map Shift.ofEdit).foldl Slot.shift s).info.column = s.info.column := by
  induction fs generalizing s with
  | nil => exact ⟨rfl, rfl, rfl⟩
  | cons e fs ih => exact ih (s.shift (.ofEdit e))

/-- The slot is dated as far as it has seen the edits, and those that it has not seen do not replace its
start. -/
structure Follows (r : Trail) (s : Slot) : Prop where
  dated : s.Dated (r.take s.seen)
  spared : Edit.SparedAll s.info.start (r.edits.drop s.seen)

/-- A slot that has seen everything has only to be dated. -/
theorem Dated.follows (h : s.Dated r) (hseen : s.seen = r.edits.length) : s.Follows r := by
  refine ⟨?_, ?_⟩
  · rwa [hseen, Trail.take_length]
  · rw [hseen, List.drop_length]
    trivial

end Slot

namespace Tree

open Shape Parse

variable {t g : Tree} {r : Trail} {s : Slot} {sh sub sub' : Shape} {ls : List Level} {e : Edit}
  {replacement : Subtree}

/-! ### Logs -/

/-- The tree belongs to the text after some edits, and its log holds the last ones of them. -/
structure Logs (t : Tree) (r : Trail) : Prop where
  source : t.source = .ofText r.last
  size_lt : r.last.size < Text.maxSize
  fits : Edit.FitAll r.text r.edits
  base_le : t.base ≤ r.edits.length
  pending : t.pending.toList = (r.edits.drop t.base).map .ofEdit

namespace Logs

theorem version_eq (h : t.Logs r) : t.version = r.edits.length := by
  have hlen := congrArg List.length h.pending
  have hle := h.base_le
  simp only [Array.length_toList, List.length_map, List.length_drop] at hlen
  unfold version
  omega

theorem congr (h : t.Logs r) (hsource : g.source = t.source) (hpending : g.pending = t.pending)
    (hbase : g.base = t.base) : g.Logs r := by
  refine ⟨hsource.trans h.source, h.size_lt, h.fits, hbase ▸ h.base_le, ?_⟩
  rw [hpending, hbase]
  exact h.pending

/-- The part of the log that a slot has not seen. -/
theorem extract_pending (h : t.Logs r) (hbase : t.base ≤ s.seen) :
    (t.pending.extract (s.seen - t.base) t.pending.size).toList
      = (r.edits.drop s.seen).map Shift.ofEdit := by
  have hversion := h.version_eq
  unfold version at hversion
  rw [Array.toList_extract, List.extract_eq_take_drop, h.pending, ← List.map_drop, List.drop_drop,
    show t.base + (s.seen - t.base) = s.seen by omega, List.take_of_length_le]
  simp only [List.length_map, List.length_drop]
  omega

/-- A node that catches up starts where the edits that it has not seen have moved its start. -/
theorem start_current (h : t.Logs r) (hbase : t.base ≤ s.seen) :
    (t.current s).info.start = Offset.after s.info.start (r.edits.drop s.seen) := by
  unfold current
  split
  · next heq =>
    rw [heq, h.version_eq, List.drop_length]
    rfl
  · rw [← Array.foldl_toList, h.extract_pending hbase]
    have hstart := (Slot.foldl_shift_info (r.edits.drop s.seen) s).1
    dsimp only
    split
    · exact hstart
    · exact hstart

/-- A node that catches up is looked up in the present text if its start has moved; if it has not, its
position is as good as it was. -/
theorem dated_current (h : t.Logs r) (hbase : t.base ≤ s.seen) (hseen : s.seen ≤ t.version)
    (hs : s.Follows r) : (t.current s).Dated r := by
  have hstart := h.start_current hbase
  have hversion := h.version_eq
  -- the start lies in the text, whether it has moved or not
  have hle : (t.current s).info.start ≤ r.last.size := by
    rw [hstart, ← r.last_take s.seen]
    refine (h.fits.drop s.seen).after_le_size hs.spared (hs.dated.start_le ?_)
    have hfits := h.fits
    rw [← List.take_append_drop s.seen r.edits] at hfits
    exact (Edit.FitAll.append_iff.1 hfits).1
  revert hstart hle
  unfold current
  split
  · next heq =>
    intro _ _
    have hdated := hs.dated
    rwa [heq, hversion, Trail.take_length] at hdated
  · rw [← Array.foldl_toList, h.extract_pending hbase]
    obtain ⟨-, hline, hcolumn⟩ := Slot.foldl_shift_info (r.edits.drop s.seen) s
    generalize ((r.edits.drop s.seen).map Shift.ofEdit).foldl Slot.shift s = moved at hline hcolumn ⊢
    dsimp only
    split
    · -- the start has not moved, all in all
      next hsame =>
      intro hstart _
      change moved.info.start = _ at hstart
      obtain ⟨k, hk, hle, hspared, hstays, hdate⟩ := hs.dated
      change k ≤ (r.edits.take s.seen).length at hk
      rw [List.length_take] at hk
      have hdrop : r.edits.drop k = (r.edits.take s.seen).drop k ++ r.edits.drop s.seen := by
        conv_lhs => rw [← List.take_append_drop s.seen r.edits]
        exact List.drop_append_of_le_length (by rw [List.length_take]; omega)
      rw [Trail.take_take (by omega)] at hle hdate
      refine ⟨k, by omega, ?_⟩
      show moved.info.start ≤ _ ∧ Edit.SparedAll moved.info.start _
        ∧ Offset.after moved.info.start _ = moved.info.start ∧ moved.info.line = _
        ∧ moved.info.column = _
      rw [hsame] at hstart ⊢
      rw [hdrop, Edit.sparedAll_append, Offset.after_append, hline, hcolumn]
      exact ⟨hle, ⟨hspared, hstays.symm ▸ hs.spared⟩, hstays.symm ▸ hstart.symm, hdate⟩
    · intro _ hle
      refine Slot.dated_of_position h.size_lt hle ?_
      show _ = (LineTable.ofText r.last).position _
      rw [h.source]
      rfl

end Logs

/-! ### Trees -/

/-- The tree belongs to the text after some edits, and all of its nodes follow them. -/
structure Positioned (t : Tree) (r : Trail) : Prop extends t.Logs r where
  slot : ∀ id ∈ t.preorder, ∀ s, t.slots[id]? = some s → s.Follows r

namespace Positioned

/-- What a node reports is dated. -/
theorem dated (h : t.Positioned r) (ht : t.Arranged sh) {id : Nat} (hid : id ∈ t.preorder)
    (hs : t.node? id = some s) : s.Dated r := by
  obtain ⟨s, hslot, rfl⟩ := Option.map_eq_some_iff.1 hs
  obtain ⟨hbase, hversion⟩ := ht.seen s (Array.mem_of_getElem? hslot)
  exact h.dated_current hbase hversion (h.slot id hid s hslot)

/-- Looks at a tree do not matter. -/
theorem sameView (h : t.Positioned r) (hview : SameView t g) (ht : t.Arranged sh) : g.Positioned r := by
  refine ⟨h.congr hview.source hview.pending hview.base, fun id hid s hs => ?_⟩
  rw [(hview.arranged ht).preorder_eq, ← ht.preorder_eq] at hid
  rcases hview.slot id with heq | heq
  · exact h.slot id hid s (heq.symm.trans hs)
  · have hnode := heq.symm.trans hs
    refine (h.dated ht hid hnode).follows ?_
    obtain ⟨s₀, -, rfl⟩ := Option.map_eq_some_iff.1 hnode
    rw [current_seen, h.version_eq]

/-- Emptying the log does not matter. -/
theorem compact (h : t.Positioned r) (ht : t.Arranged sh) : t.compact.Positioned r := by
  have hversion := h.version_eq
  refine ⟨⟨h.source, h.size_lt, h.fits, Nat.le_of_eq hversion, ?_⟩, fun id hid s hs => ?_⟩
  · show [] = (r.edits.drop t.version).map Shift.ofEdit
    rw [hversion, List.drop_length]
    rfl
  · rw [ht.compact.preorder_eq, ← ht.preorder_eq] at hid
    have hnode : t.node? id = some s := by
      unfold node?
      rw [← hs]
      exact Array.getElem?_map.symm
    refine (h.dated ht hid hnode).follows ?_
    obtain ⟨s₀, -, rfl⟩ := Option.map_eq_some_iff.1 hnode
    rw [current_seen, hversion]

end Positioned

/-- A fresh tree is positioned. -/
theorem positioned_ofSubtree {text : Text} (hsize : text.size < Text.maxSize) {root : Subtree}
    (h : root.Tidy (.ofText text)) (reads : Footprint) :
    (ofSubtree (.ofText text) reads root).Positioned ⟨text, []⟩ := by
  obtain ⟨sh, -, harranged, hgrown⟩ := ofSubtree_spec (.ofText text) reads root
  have hversion := version_ofSubtree (.ofText text) reads root
  have hsubtree := hgrown.subtree_eq hversion.symm
  refine ⟨⟨source_ofSubtree _ _ _, hsize, trivial, ?_, ?_⟩, fun id hid s hs => ?_⟩
  · exact Nat.le_of_eq (Nat.eq_zero_of_add_eq_zero_right hversion)
  · rw [List.drop_nil, List.map_nil, ← List.length_eq_zero_iff, Array.length_toList]
    exact Nat.eq_zero_of_add_eq_zero_left hversion
  · rw [harranged.preorder_eq] at hid
    have hseen := hgrown.seen_eq hid hs
    have hnode := infoAt_mem_nodes (t := ofSubtree (.ofText text) reads root) hid
    rw [infoAt_of_node? (node?_eq_some hs), current_of_seen (hseen.trans hversion.symm), hsubtree] at hnode
    obtain ⟨hposition, hle⟩ := h.placed _ hnode
    refine Slot.Dated.follows (Slot.dated_of_position (r := ⟨text, []⟩) hsize hle ?_) hseen
    rw [hposition, Source.position, show min s.info.start (Source.ofText text).size = s.info.start from
      Nat.min_eq_left hle]
    rfl

/-! ### Patches -/

/-- A patch adds its edit to the log. -/
theorem Logs.grafted (h : t.Logs r) (hfits : e.Fits t.source.text)
    (hg : Grafted t ls sub replacement e g sub') : g.Logs (r.extend e) := by
  rw [h.source] at hfits
  change e.Fits r.last at hfits
  refine ⟨?_, ?_, Edit.FitAll.append_iff.2 ⟨h.fits, hfits, trivial⟩, ?_, ?_⟩
  · rw [hg.source, h.source, Source.edit_ofText hfits, Trail.last_extend]
  · rw [Trail.last_extend]
    exact hfits.size_lt'
  · have := h.base_le
    show g.base ≤ (r.edits ++ [e]).length
    rw [hg.base, List.length_append]
    omega
  · show _ = ((r.edits ++ [e]).drop g.base).map Shift.ofEdit
    rw [hg.pending, hg.base, Array.toList_push, h.pending, List.drop_append_of_le_length h.base_le,
      List.map_append]
    rfl

/-- A new node stands where it says. -/
theorem Logs.follows_planted (h : t.Logs r) (hfits : e.Fits t.source.text)
    (hg : Grafted t ls sub replacement e g sub') (htidy : replacement.Tidy g.source) {j : Nat}
    (hj : j ∈ sub'.ids) (hs : g.slots[j]? = some s) : s.Follows (r.extend e) := by
  have hlogs := h.grafted hfits hg
  have hseen := hg.grown.seen_eq hj hs
  have hnode := infoAt_mem_nodes (t := g) hj
  rw [infoAt_of_node? (node?_eq_some hs), current_of_seen hseen, hg.grown.subtree_eq rfl] at hnode
  obtain ⟨hposition, hle⟩ := htidy.placed _ hnode
  rw [hlogs.source] at hposition hle
  refine Slot.Dated.follows (Slot.dated_of_position hlogs.size_lt hle ?_) (hseen.trans hlogs.version_eq)
  rw [hposition, Source.position, Nat.min_eq_left hle]
  rfl

namespace Positioned

section Patch

variable {gr : Grammar} (h : t.Positioned r) (hfirm : t.Firm gr (plug ls sub))
  (ht : t.Targeted ls sub e) (hg : Grafted t ls sub replacement e g sub')

include h hfirm ht hg

/-- A node above the place is looked up in the edited text. -/
theorem follows_level {l : Level} (hl : l ∈ ls) (hs : g.slots[l.id]? = some s) :
    s.Follows (r.extend e) := by
  have hlogs := h.toLogs.grafted ht.fits hg
  have hid : l.id ∈ (plug ls sub).ids := mem_ids_plug.2 (.inr (id_mem_outer hl))
  have hcarried := hfirm.carried ht hg (id_mem_outer hl)
  obtain ⟨s₀, hs₀, hslot⟩ := hg.level l hl
  cases hslot.symm.trans hs
  refine Slot.Dated.follows (Slot.dated_of_position hlogs.size_lt ?_ ?_) hlogs.version_eq
  · have hle := Nat.le_trans (hfirm.node_le hid).2 (hfirm.stop_le_size hid)
    have hcarry := ht.fits.shift_le_size hcarried.spares_start hle
    rw [infoAt_of_node? hs₀, show t.source.text = r.last by rw [h.source]; rfl, ← r.last_extend] at hcarry
    exact hcarry
  · show g.source.lines.position _ = _
    rw [hlogs.source]
    rfl

/-- A node beside the way down is not touched, and the edit spares its start. -/
theorem follows_beside {j : Nat} (hj : j ∈ outer ls) (hne : ∀ l ∈ ls, l.id ≠ j)
    (hs : g.slots[j]? = some s) : s.Follows (r.extend e) := by
  have hid : j ∈ (plug ls sub).ids := mem_ids_plug.2 (.inr hj)
  rw [hg.beside j hj hne] at hs
  obtain ⟨hbase, hversion⟩ := hfirm.arranged.seen s (Array.mem_of_getElem? hs)
  have hle : s.seen ≤ r.edits.length := h.version_eq ▸ hversion
  obtain ⟨hdated, hspared⟩ := h.slot j (by rwa [hfirm.arranged.preorder_eq]) s hs
  have hcarried := (hfirm.carried ht hg hj).spares_start
  rw [infoAt_of_node? (node?_eq_some hs), h.start_current hbase] at hcarried
  refine ⟨by rwa [Trail.take_extend hle], ?_⟩
  show Edit.SparedAll _ ((r.edits ++ [e]).drop s.seen)
  rw [List.drop_append_of_le_length hle, Edit.sparedAll_append]
  exact ⟨hspared, hcarried, trivial⟩

theorem grafted (htidy : replacement.Tidy g.source) : g.Positioned (r.extend e) := by
  refine ⟨h.toLogs.grafted ht.fits hg, fun id hid s hs => ?_⟩
  rw [hg.arranged.preorder_eq, mem_ids_plug] at hid
  rcases hid with hid | hid
  · exact h.toLogs.follows_planted ht.fits hg htidy hid hs
  · by_cases hlevel : ∃ l ∈ ls, l.id = id
    · obtain ⟨l, hl, rfl⟩ := hlevel
      exact h.follows_level hfirm ht hg hl hs
    · push Not at hlevel
      exact h.follows_beside hfirm ht hg hid hlevel hs

end Patch

/-- **A patch keeps the positions of a tree dated**, and adds its edit to the trail. -/
theorem graft {gr : Grammar} (h : t.Positioned r) (hfirm : t.Firm gr (plug ls sub))
    (ht : t.Targeted ls sub e) (htidy : replacement.Tidy (t.source.edit e)) :
    (t.graft sub.id replacement e).Positioned (r.extend e) := by
  obtain ⟨sub', hg⟩ := grafted_spec hfirm.arranged e replacement
  have hgrafted := h.grafted hfirm ht hg (hg.source ▸ htidy)
  rw [graft_eq]
  split
  · exact hgrafted.compact hg.arranged
  · exact hgrafted

end Positioned

end Tree

end Packrat
