import Packrat.Parse.Matcher
import Packrat.Proofs.Tree.Subtree
import Mathlib.Data.List.Basic

/-!
Trees without depths.

The depth of a node is the number of rules around it when it was made first.  A match that is
remembered can be asked for again at another depth, so the depth is the one thing about a node that
does not follow from what was matched where.  Everything else is compared with the depths set to zero
(`flat`); nothing but the node itself looks at a depth, so all operations go along with that.
-/

namespace Packrat

/-- The node without its depth. -/
def NodeInfo.flat (i : NodeInfo) : NodeInfo := { i with depth := 0 }

namespace Subtree

mutual

/-- The tree without depths. -/
def flat : Subtree → Subtree
  | node info children => node info.flat (flatAll children)

def flatAll : List Subtree → List Subtree
  | [] => []
  | t :: ts => flat t :: flatAll ts

end

theorem flatAll_eq (ts : List Subtree) : flatAll ts = ts.map flat := by
  induction ts with
  | nil => rfl
  | cons t ts ih => rw [flatAll, ih, List.map_cons]

theorem flat_node (info : NodeInfo) (children : List Subtree) :
    (node info children).flat = node info.flat (children.map flat) := by rw [flat, flatAll_eq]

@[simp] theorem flat_flat (t : Subtree) : t.flat.flat = t.flat := by
  induction t using induct with
  | step info children ih =>
    simp only [flat_node, List.map_map]
    congr 1
    exact List.map_congr_left ih

theorem nodes_flat (t : Subtree) : t.flat.nodes = t.nodes.map NodeInfo.flat := by
  induction t using induct with
  | step info children ih =>
    rw [flat_node, nodes_node, nodes_node, List.map_cons, List.map_flatMap, List.flatMap_map]
    congr 1
    exact List.flatMap_congr ih

@[simp] theorem info_flat (t : Subtree) : t.flat.info = t.info.flat := by
  cases t with
  | node info children => rw [flat_node]; rfl

mutual

theorem charge_flat (f : Footprint) : ∀ t : Subtree, t.flat.charge f = t.charge f
  | node info children => by
    rw [flat, charge, charge, chargeAll_flat]
    rfl

theorem chargeAll_flat (f : Footprint) : ∀ ts : List Subtree, chargeAll f (flatAll ts) = chargeAll f ts
  | [] => rfl
  | t :: ts => by rw [flatAll, chargeAll, chargeAll, charge_flat f t, chargeAll_flat _ ts]

end

end Subtree

namespace Parse

/-! ### Outcomes -/

def Piece.flat : Piece → Piece
  | .node key tree => .node key tree.flat
  | .text bytes o => .text bytes o

def Yield.flat : Yield → Yield
  | .one p => .one p.flat
  | .many ps => .many (ps.map Piece.flat)

def Outcome.flat : Outcome → Outcome
  | .fail => .fail
  | .ok stop y => .ok stop y.flat

def Entry.flat (e : Entry) : Entry := ⟨e.outcome.flat, e.reads⟩

/-- A node of an outcome without depths. -/
def flatNode (n : Key × Subtree) : Key × Subtree := (n.1, n.2.flat)

def Frame.flat (f : Frame) : Frame := ⟨f.reads, f.touched.map flatNode⟩

@[simp] theorem Piece.flat_flat (p : Piece) : p.flat.flat = p.flat := by
  cases p with
  | node key tree => simp only [Piece.flat, Subtree.flat_flat]
  | text bytes o => rfl

@[simp] theorem Yield.flat_flat (y : Yield) : y.flat.flat = y.flat := by
  cases y with
  | one p => simp only [Yield.flat, Piece.flat_flat]
  | many ps => simp only [Yield.flat, Array.map_map, Function.comp_def, Piece.flat_flat]

@[simp] theorem Outcome.flat_flat (out : Outcome) : out.flat.flat = out.flat := by
  cases out with
  | fail => rfl
  | ok stop y => simp only [Outcome.flat, Yield.flat_flat]

@[simp] theorem Entry.flat_flat (e : Entry) : e.flat.flat = e.flat := by
  simp only [Entry.flat, Outcome.flat_flat]

theorem Yield.pieces_flat (y : Yield) : y.flat.pieces = y.pieces.map Piece.flat := by
  cases y with
  | one p => simp [Yield.flat, Yield.pieces]
  | many ps => rfl

theorem Yield.nodes_flat (y : Yield) : y.flat.nodes = y.nodes.map flatNode := by
  unfold Yield.nodes
  rw [Yield.pieces_flat, Array.filterMap_map, Array.map_filterMap]
  congr 1
  funext p
  cases p <;> rfl

theorem Outcome.nodes_flat (out : Outcome) : out.flat.nodes = out.nodes.map flatNode := by
  cases out with
  | fail => simp [Outcome.flat, Outcome.nodes]
  | ok stop y => exact Yield.nodes_flat y

/-! ### Frames -/

@[simp] theorem Frame.flat_empty : ({} : Frame).flat = {} := by simp [Frame.flat]

theorem Frame.flat_consume (f : Frame) (e : Entry) :
    (f.consume e).flat = f.flat.consume e.flat := by
  simp only [Frame.consume, Frame.flat, Entry.flat, Outcome.nodes_flat, Array.map_append]

theorem Frame.total_flat (f : Frame) : f.flat.total = f.total := by
  simp only [Frame.total, Frame.flat, Array.foldl_map, flatNode, Subtree.charge_flat]

theorem Frame.settle_flat (f : Frame) (y : Yield) : f.flat.settle y.flat = f.settle y := by
  simp only [Frame.settle, Yield.nodes_flat, Frame.flat, Array.foldl_map, flatNode,
    Subtree.charge_flat]

/-! ### Nodes that are made -/

theorem operatorLeaf?_flat (ctx : Context) (d d' : Nat) (bytes : Bytes) (o : Nat) :
    (operatorLeaf? ctx d bytes o).map Subtree.flat
      = (operatorLeaf? ctx d' bytes o).map Subtree.flat := by
  unfold operatorLeaf?
  split
  · rfl
  · simp only [Option.map_some, Subtree.flat_node, NodeInfo.flat]

theorem Piece.child?_flat (ctx : Context) (d d' : Nat) (p : Piece) :
    (p.flat.child? ctx d').map Subtree.flat = (p.child? ctx d).map Subtree.flat := by
  cases p with
  | node key tree => simp [Piece.flat, Piece.child?]
  | text bytes o => exact operatorLeaf?_flat ctx d' d bytes o

/-- Depths that differ inside or at the node make no other difference to it. -/
theorem Yield.wrap_flat (ctx : Context) (y : Yield) {info info' : NodeInfo}
    (h : info'.flat = info.flat) : (y.flat.wrap ctx info').flat = (y.wrap ctx info).flat := by
  cases y with
  | one p =>
    cases p with
    | node key tree =>
      simp only [Yield.flat, Piece.flat, Yield.wrap, Subtree.flat_node, h, List.map_cons,
        List.map_nil, Subtree.flat_flat]
    | text bytes o =>
      have h' : ({ info' with value := .text bytes } : NodeInfo).flat
          = ({ info with value := .text bytes } : NodeInfo).flat := by
        simp only [NodeInfo.flat, NodeInfo.mk.injEq] at h ⊢
        tauto
      simp only [Yield.flat, Piece.flat, Yield.wrap, Subtree.flat_node, h', List.map_nil]
  | many ps =>
    simp only [Yield.flat, Yield.wrap, Subtree.flat_node, h, Array.toList_map, List.filterMap_map,
      List.map_filterMap]
    congr 1
    refine List.filterMap_congr fun p _ => ?_
    exact Piece.child?_flat ctx info.depth info'.depth p

end Parse

end Packrat
