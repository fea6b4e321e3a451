import Packrat.Footprint
import Packrat.Value

/-!
Parse trees as values.

A node says what it is, where it stands, which rule made it and what was examined to make it, its
children's share left out.  Every match makes such a tree; `Tree` keeps one of them under numbers
that outlive changes.
-/

namespace Packrat

/-- What a node says about itself. -/
structure NodeInfo where
  type : Bytes := []
  value : Value := .empty
  line : Nat := 1
  column : Nat := 1
  /-- The matched stretch is `[start, stop)`. -/
  start : Nat := 0
  stop : Nat := 0
  /-- The offset at which the rule or token was asked for, in front of ignored text. -/
  invoked : Nat := 0
  /-- The number of the rule; tokens and operators have none. -/
  rule : Option Nat := none
  /-- The number of rules that were being matched around this one, itself included. -/
  depth : Nat := 0
  reads : Footprint := .empty

/-- A node with its children. -/
inductive Subtree where
  | node (info : NodeInfo) (children : List Subtree)

namespace Subtree

def info : Subtree → NodeInfo
  | node info _ => info

def children : Subtree → List Subtree
  | node _ children => children

mutual

/-- Adds everything that was examined for a tree. -/
def charge (f : Footprint) : Subtree → Footprint
  | node info children => chargeAll (f.merge info.reads) children

def chargeAll (f : Footprint) : List Subtree → Footprint
  | [] => f
  | t :: ts => chargeAll (charge f t) ts

end

mutual

/-- The number of nodes. -/
def size : Subtree → Nat
  | node _ children => sizeAll children + 1

def sizeAll : List Subtree → Nat
  | [] => 0
  | t :: ts => size t + sizeAll ts

end

end Subtree

end Packrat
