import Packrat.Tree.Basic

/-!
The text of a tree: one node to a line, children indented by two blanks.

`Tree.subtree?` gives a subtree as a value again, with everything its nodes say at the moment.
-/

namespace Packrat

namespace Tree

/-- What a node says in one line: its type with its value, or else with the number of its children.
-/
def slotText (s : Slot) : Bytes :=
  if s.info.value != .empty then
    s.info.type ++ Byte.openParen :: s.info.value.print ++ [Byte.closeParen]
  else if s.children.isEmpty then s.info.type
  else s.info.type ++ Byte.openBracket :: Bytes.decimal s.children.length ++ [Byte.closeBracket]

/-- One node in one line. -/
def nodeText? (t : Tree) (id : Nat) : Option Bytes := (t.slots[id]?).map slotText

/-- The lines of a subtree; `fuel` bounds its height. -/
def linesFrom (t : Tree) : (fuel indent id : Nat) → List Bytes
  | 0, _, _ => []
  | fuel + 1, indent, id =>
    (List.replicate (2 * indent) Byte.blank ++ (t.nodeText? id).getD [])
      :: (t.children id).flatMap (linesFrom t fuel (indent + 1))

/-- The tree as a text. -/
def print (t : Tree) : Bytes := Bytes.join [Byte.newline] (t.linesFrom t.slots.size 0 t.root)

/-- The subtree of a node; `fuel` bounds its height. -/
def subtreeFrom (t : Tree) : (fuel : Nat) → (id : Nat) → Subtree
  | 0, _ => .node {} []
  | fuel + 1, id =>
    let info := ((t.node? id).map (·.info)).getD {}
    .node info ((t.children id).map (subtreeFrom t fuel))

/-- The subtree of a node, as it is now. -/
def subtree? (t : Tree) (id : Nat) : Option Subtree :=
  if id < t.slots.size then some (t.subtreeFrom t.slots.size id) else none

end Tree

end Packrat
