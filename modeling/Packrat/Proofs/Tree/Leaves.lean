import Packrat.Proofs.Tree.Subtree
import Packrat.Proofs.Tree.View

/-!
Nodes inside each other and leaves in a row.

In a nested tree (`Subtree.Nested`) every node holds its children, which follow each other; then the
leaves follow each other as well (`Subtree.Nested.leaves_apart`).  The nodes and leaves of a live tree
are found under its numbers (`Tree.nodes_subtree`, `Tree.Linked.leaves_eq`).
-/

namespace Packrat

namespace Subtree

/-- Every node starts behind the place where it was asked for and holds its children, which follow each
other. -/
inductive Nested : Subtree → Prop
  | node {info : NodeInfo} {children : List Subtree} : info.invoked ≤ info.start →
      info.start ≤ info.stop →
      (∀ c ∈ children, info.start ≤ c.info.invoked ∧ c.info.stop ≤ info.stop) →
      children.Pairwise (fun c c' => c.info.stop ≤ c'.info.invoked) →
      (∀ c ∈ children, Nested c) → Nested (.node info children)

mutual

/-- The nodes without children, in preorder. -/
def leaves : Subtree → List NodeInfo
  | node info [] => [info]
  | node _ (c :: cs) => leaves c ++ leavesAll cs

def leavesAll : List Subtree → List NodeInfo
  | [] => []
  | t :: ts => leaves t ++ leavesAll ts

end

theorem leavesAll_eq (ts : List Subtree) : leavesAll ts = ts.flatMap leaves := by
  induction ts with
  | nil => rfl
  | cons t ts ih => rw [leavesAll, ih, List.flatMap_cons]

theorem leaves_leaf (info : NodeInfo) : (node info []).leaves = [info] := by rw [leaves]

theorem leaves_node (info : NodeInfo) {children : List Subtree} (h : children ≠ []) :
    (node info children).leaves = children.flatMap leaves := by
  cases children with
  | nil => exact absurd rfl h
  | cons c cs => rw [leaves, leavesAll_eq, List.flatMap_cons]

variable {t : Subtree}

namespace Nested

theorem invoked_le (h : t.Nested) : t.info.invoked ≤ t.info.start := by
  cases h with | node h _ _ _ _ => exact h

theorem start_le (h : t.Nested) : t.info.start ≤ t.info.stop := by
  cases h with | node _ h _ _ _ => exact h

/-- Every node lies inside the tree. -/
theorem nodes_within (h : t.Nested) : ∀ i ∈ t.nodes,
    t.info.invoked ≤ i.invoked ∧ i.invoked ≤ i.start ∧ i.start ≤ i.stop ∧ i.stop ≤ t.info.stop := by
  induction t using induct with
  | step info children ih =>
    cases h with
    | node h₁ h₂ h₃ _ h₅ =>
      intro i hi
      rcases mem_nodes_node.1 hi with rfl | ⟨c, hc, hi⟩
      · exact ⟨Nat.le_refl _, h₁, h₂, Nat.le_refl _⟩
      · obtain ⟨h₆, h₇, h₈, h₉⟩ := ih c hc (h₅ c hc) i hi
        obtain ⟨h₁₀, h₁₁⟩ := h₃ c hc
        refine ⟨?_, h₇, h₈, Nat.le_trans h₉ h₁₁⟩
        show info.invoked ≤ _
        omega

/-- A leaf lies inside the tree. -/
theorem leaves_within (h : t.Nested) :
    ∀ i ∈ t.leaves, t.info.start ≤ i.start ∧ i.start ≤ i.stop ∧ i.stop ≤ t.info.stop := by
  induction t using induct with
  | step info children ih =>
    cases h with
    | node _ h₂ h₃ _ h₅ =>
      intro i hi
      by_cases hnil : children = []
      · subst hnil
        rw [leaves_leaf, List.mem_singleton] at hi
        subst hi
        exact ⟨Nat.le_refl _, h₂, Nat.le_refl _⟩
      · rw [leaves_node info hnil, List.mem_flatMap] at hi
        obtain ⟨c, hc, hi⟩ := hi
        obtain ⟨h₆, h₇, h₈⟩ := ih c hc (h₅ c hc) i hi
        obtain ⟨h₉, h₁₀⟩ := h₃ c hc
        have := (h₅ c hc).invoked_le
        refine ⟨?_, h₇, Nat.le_trans h₈ h₁₀⟩
        show info.start ≤ _
        omega

/-- Leaves follow each other. -/
theorem leaves_apart (h : t.Nested) : t.leaves.Pairwise fun i j => i.stop ≤ j.start := by
  induction t using induct with
  | step info children ih =>
    cases h with
    | node _ _ _ h₄ h₅ =>
      by_cases hnil : children = []
      · subst hnil
        rw [leaves_leaf]
        exact List.pairwise_singleton _ _
      · rw [leaves_node info hnil, List.pairwise_flatMap]
        refine ⟨fun c hc => ih c hc (h₅ c hc), h₄.imp_of_mem ?_⟩
        intro c c' hc hc' hcc i hi j hj
        have h₁ := ((h₅ c hc).leaves_within i hi).2.2
        have h₂ := ((h₅ c' hc').leaves_within j hj).1
        have h₃ := (h₅ c' hc').invoked_le
        omega

end Nested

end Subtree

namespace Tree

variable {t : Tree} {sh : Shape} {parent : Option Nat}

/-- The nodes of a tree are what its numbers stand for. -/
theorem nodes_subtree (t : Tree) (sh : Shape) : (t.subtree sh).nodes = sh.ids.map t.infoAt := by
  induction sh using Shape.induct with
  | step id children ih =>
    rw [subtree_node, Subtree.nodes_node, Shape.ids_node, List.map_cons, List.map_flatMap,
      List.flatMap_map]
    congr 1
    exact List.flatMap_congr ih

/-- The leaves of a tree are the nodes whose slots have no children. -/
theorem Linked.leaves_eq (h : t.Linked parent sh) :
    (t.subtree sh).leaves = (sh.ids.filter fun id => (t.children id).isEmpty).map t.infoAt := by
  induction sh using Shape.induct generalizing parent with
  | step id children ih =>
    have hbelow := (linked_node.1 h).2
    have hchildren : t.children id = children.map Shape.id := h.children_eq
    rw [subtree_node, Shape.ids_node, List.filter_cons, hchildren]
    by_cases hnil : children = []
    · subst hnil
      simp [Subtree.leaves_leaf]
    · rw [Subtree.leaves_node _ (by simpa using hnil), List.flatMap_map]
      simp only [List.isEmpty_map, List.isEmpty_iff, hnil, if_false, List.filter_flatMap,
        List.map_flatMap]
      exact List.flatMap_congr fun c hc => ih c hc (hbelow c hc)

end Tree

end Packrat
