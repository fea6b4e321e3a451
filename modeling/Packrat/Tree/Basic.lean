import Packrat.Text.Source
import Packrat.Tree.Subtree

/-!
Live trees: a parse tree whose nodes have numbers that outlive changes.

The nodes stand in slots.  A patch (`Tree.graft`) changes the text, puts a new subtree in the place
of an old one and touches only its ancestors; for all other nodes the displacement is logged
(`Tree.pending`) and applied when a node is next looked at (`Tree.catchUp`).  `Tree.current` is what
a slot says once it has caught up; reading a tree through it changes nothing.

Slots of removed nodes are handed out again, the last one freed first.
-/

namespace Packrat

/-! ### Slots -/

/-- A stretch that covers the reads of a whole subtree; empty if nothing was read. -/
structure Extent where
  start : Nat := 0
  stop : Nat := 0
  deriving DecidableEq, Repr

namespace Extent

def isEmpty (x : Extent) : Bool := x.stop ≤ x.start

/-- The smallest stretch that covers both. -/
def cover (x y : Extent) : Extent :=
  if y.isEmpty then x else if x.isEmpty then y else ⟨min x.start y.start, max x.stop y.stop⟩

/-- Whether the stretch meets `[start, stop)`. -/
def meets (x : Extent) (start stop : Nat) : Bool :=
  x.start < x.stop && x.start < stop && start < x.stop

/-- The stretch that covers a footprint. -/
def ofFootprint (f : Footprint) : Extent := f.spans.foldl (fun x s => x.cover ⟨s.1, s.2⟩) {}

end Extent

/-- A displacement: the edit of `[start, stop)` changed the length by `delta`. -/
structure Shift where
  start : Nat
  stop : Nat
  delta : Int
  deriving DecidableEq, Repr

namespace Shift

def ofEdit (e : Edit) : Shift := ⟨e.offset, e.stop, e.delta⟩

/-- Where an offset is found after the edit. -/
def offset (s : Shift) (o : Nat) : Nat := Offset.shift o s.start s.stop s.delta

end Shift

/-- The place of a node. -/
structure Slot where
  info : NodeInfo := {}
  parent : Option Nat := none
  children : List Nat := []
  /-- Covers the reads of the node and of everything below it. -/
  extent : Extent := {}
  /-- The number of displacements that the node has seen. -/
  seen : Nat := 0

namespace Slot

/-- Moves the offsets of a node. -/
def shift (s : Slot) (d : Shift) : Slot :=
  { s with
    info := { s.info with
      start := d.offset s.info.start
      stop := d.offset s.info.stop
      invoked := d.offset s.info.invoked
      reads := s.info.reads.shift d.start d.stop d.delta }
    extent := ⟨d.offset s.extent.start, d.offset s.extent.stop⟩ }

/-- Sets line and column. -/
def locate (s : Slot) (position : Nat × Nat) : Slot :=
  { s with info := { s.info with line := position.1, column := position.2 } }

end Slot

/-! ### Trees -/

/-- A parse tree with numbered nodes, and the text it belongs to. -/
structure Tree where
  source : Source
  slots : Array Slot := #[]
  /-- Slots to be handed out again, the next one first. -/
  free : List Nat := []
  root : Nat := 0
  /-- What was examined outside of any node. -/
  documentReads : Footprint := .empty
  /-- The displacements that some node may not have seen. -/
  pending : Array Shift := #[]
  /-- The number of displacements that every node has seen. -/
  base : Nat := 0

namespace Tree

/-- The number of displacements so far. -/
def version (t : Tree) : Nat := t.base + t.pending.size

/-- The number of nodes. -/
def size (t : Tree) : Nat := t.slots.size - t.free.length

/-- A slot once it has seen all displacements.  The position is found anew only if the start has
moved. -/
def current (t : Tree) (s : Slot) : Slot :=
  if s.seen = t.version then s
  else
    let moved := (t.pending.extract (s.seen - t.base) t.pending.size).foldl Slot.shift s
    let placed :=
      if moved.info.start = s.info.start then moved
      else moved.locate (t.source.lines.position moved.info.start)
    { placed with seen := t.version }

/-- The node with a number, as it is now. -/
def node? (t : Tree) (id : Nat) : Option Slot := (t.slots[id]?).map t.current

/-- Lets a node see all displacements. -/
def catchUp (t : Tree) (id : Nat) : Tree := { t with slots := t.slots.modify id t.current }

def parent? (t : Tree) (id : Nat) : Option Nat := (t.slots[id]?).bind (·.parent)

def children (t : Tree) (id : Nat) : List Nat := ((t.slots[id]?).map (·.children)).getD []

/-! ### Planting -/

/-- Hands out a slot. -/
def allocate (t : Tree) : Nat × Tree :=
  match t.free with
  | id :: rest => (id, { t with free := rest })
  | [] => (t.slots.size, { t with slots := t.slots.push {} })

mutual

/-- Puts a subtree into a slot, its descendants into slots that are handed out in preorder. -/
def plant (t : Tree) (parent : Option Nat) (id : Nat) : Subtree → Tree
  | .node info children =>
    let slot : Slot := { info, parent, seen := t.version }
    let t := { t with slots := t.slots.setIfInBounds id slot }
    plantBelow t id [] (.ofFootprint info.reads) children

/-- Puts subtrees below a node, behind the children `planted` (the last one first), and tells the
node of its children and of the extent of all of them. -/
def plantBelow (t : Tree) (id : Nat) (planted : List Nat) (extent : Extent) : List Subtree → Tree
  | [] =>
    { t with
      slots := t.slots.modify id fun s => { s with children := planted.reverse, extent := extent } }
  | s :: rest =>
    let (child, t) := t.allocate
    let t := plant t (some id) child s
    let below := ((t.slots[child]?).map (·.extent)).getD {}
    plantBelow t id (child :: planted) (extent.cover below) rest

end

/-- The tree of a fresh parse, its nodes numbered in preorder. -/
def ofSubtree (source : Source) (documentReads : Footprint) (s : Subtree) : Tree :=
  plant { source, documentReads, slots := #[{}] } none 0 s

/-! ### Walks -/

/-- The nodes of a subtree in preorder; `fuel` bounds its height. -/
def preorderFrom (t : Tree) : (fuel : Nat) → (id : Nat) → List Nat
  | 0, _ => []
  | fuel + 1, id => id :: (t.children id).flatMap (preorderFrom t fuel)

/-- All nodes in preorder. -/
def preorder (t : Tree) : List Nat := t.preorderFrom t.slots.size t.root

/-- The nodes below a node, each behind its own descendants. -/
def descendants (t : Tree) : (fuel : Nat) → (id : Nat) → List Nat
  | 0, _ => []
  | fuel + 1, id => (t.children id).flatMap fun c => descendants t fuel c ++ [c]

/-- A node and everything above it, from below; `fuel` bounds the height. -/
def upwards (t : Tree) : (fuel : Nat) → Option Nat → List Nat
  | 0, _ => []
  | _ + 1, none => []
  | fuel + 1, some id => id :: upwards t fuel (t.parent? id)

/-- The nodes above a node, from below. -/
def ancestors (t : Tree) (id : Nat) : List Nat := t.upwards t.slots.size (t.parent? id)

end Tree

end Packrat
