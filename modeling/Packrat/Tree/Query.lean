import Packrat.Tree.Basic

/-!
Questions to a tree.

A question about a node that does not exist has no answer (`none`).  Looking for readers lets the
nodes that are looked at catch up, so it gives the tree back as well.
-/

namespace Packrat

namespace Tree

/-- The nodes of a type, in preorder. -/
def findAll (t : Tree) (type : Bytes) : List Nat :=
  t.preorder.filter fun id => (t.slots[id]?).any (·.info.type == type)

/-- The first node of a type, in preorder. -/
def findFirst (t : Tree) (type : Bytes) : Option Nat := (t.findAll type).head?

/-- A node and everything above it, from below; `none` if the node does not exist. -/
def lineage? (t : Tree) (id : Nat) : Option (List Nat) :=
  if id < t.slots.size then some (t.upwards (t.slots.size + 1) (some id)) else none

/-- Whether a node is another one or stands above it. -/
def isAncestor? (t : Tree) (ancestor id : Nat) : Option Bool :=
  if ancestor = id then some true else (t.lineage? id).map (·.contains ancestor)

/-- The lowest node that is or stands above both nodes. -/
def commonAncestor? (t : Tree) (a b : Nat) : Option Nat := do
  let above ← t.lineage? a
  let path ← t.lineage? b
  return (path.find? above.contains).getD t.root

/-- The text that a node has matched; `none` if the node does not exist or starts behind the end. -/
def text? (t : Tree) (id : Nat) : Option Bytes := do
  let s ← t.node? id
  if s.info.start ≤ t.source.size then
    let length := Offset.wrap ((s.info.stop : Int) - (s.info.start : Int))
    return t.source.slice s.info.start (s.info.start + length)
  else none

mutual

/-- The nodes of a subtree that have examined part of `[start, stop)` themselves, in preorder.
Subtrees whose extent misses the stretch are left out; `fuel` bounds the height. -/
def readersFrom (start stop : Nat) : (fuel : Nat) → (id : Nat) → Tree → List Nat × Tree
  | 0, _, t => ([], t)
  | fuel + 1, id, t =>
    let t := t.catchUp id
    match t.slots[id]? with
    | none => ([], t)
    | some s =>
      if s.extent.meets start stop then
        let (below, t) := readersAmong start stop fuel s.children t
        (if s.info.reads.intersects start stop then id :: below else below, t)
      else ([], t)

/-- The same for several subtrees. -/
def readersAmong (start stop : Nat) (fuel : Nat) : (ids : List Nat) → Tree → List Nat × Tree
  | [], t => ([], t)
  | id :: ids, t =>
    let (first, t) := readersFrom start stop fuel id t
    let (rest, t) := readersAmong start stop fuel ids t
    (first ++ rest, t)

end

/-- The nodes that have examined part of `[start, stop)` themselves, in preorder. -/
def readers (t : Tree) (start stop : Nat) : List Nat × Tree :=
  readersFrom start stop t.slots.size t.root t

end Tree

end Packrat
