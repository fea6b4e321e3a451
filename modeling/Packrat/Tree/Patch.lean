import Packrat.Tree.Basic

/-!
Patching a live tree.

`Tree.graft` applies an edit to the text of a tree and replaces one subtree by a tree that was
matched on the edited text.  The ancestors of the subtree grow with the edit and are brought up to
date at once; all other nodes learn of it from the log.  The log is emptied when it gets long.
-/

namespace Packrat

namespace Tree

/-- The length of the log from which on it is emptied. -/
def pendingLimit : Nat := 64

/-- Empties the slot of a node and keeps it for later. -/
def release (t : Tree) (id : Nat) : Tree :=
  { t with slots := t.slots.setIfInBounds id { seen := t.version }, free := id :: t.free }

/-- Frees everything below a node. -/
def releaseBelow (t : Tree) (id : Nat) : Tree := (t.descendants t.slots.size id).foldl release t

/-- Moves an ancestor of the edited node: its end moves in any case. -/
def stretch (t : Tree) (d : Shift) (s : Slot) : Slot :=
  let moved := s.shift d
  let moved := { moved with info := { moved.info with stop := Offset.move s.info.stop d.delta } }
  { moved.locate (t.source.lines.position moved.info.start) with seen := t.version }

/-- Lets every node see all displacements and forgets them. -/
def compact (t : Tree) : Tree :=
  { t with slots := t.slots.map t.current, base := t.version, pending := #[] }

/-- Changes the text and logs the displacement. -/
def displace (t : Tree) (e : Edit) : Tree :=
  let d := Shift.ofEdit e
  { t with
    source := t.source.edit e
    pending := t.pending.push d
    documentReads := t.documentReads.shift d.start d.stop d.delta }

/-- Changes the slots of some nodes. -/
def modifyAll (t : Tree) (ids : List Nat) (f : Slot → Slot) : Tree :=
  { t with slots := ids.foldl (fun slots id => slots.modify id f) t.slots }

/-- Applies an edit and puts `replacement`, matched on the edited text, in the place of a subtree.
-/
def graft (t : Tree) (target : Nat) (replacement : Subtree) (e : Edit) : Tree :=
  let parent := t.parent? target
  let above := t.ancestors target
  let t := above.foldl catchUp t
  let t := (t.releaseBelow target).displace e
  let t := t.modifyAll above (t.stretch (.ofEdit e))
  let t := t.plant parent target replacement
  let extent := ((t.slots[target]?).map (·.extent)).getD {}
  let t := t.modifyAll above fun s => { s with extent := s.extent.cover extent }
  if pendingLimit ≤ t.pending.size then t.compact else t

end Tree

end Packrat
