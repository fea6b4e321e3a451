import Packrat.Tree.Subtree
import Packrat.Proofs.Footprint

/-!
Trees node by node.

What holds of a whole tree is mostly said of the list of its nodes (`Subtree.nodes`): what was
examined for a tree is what some node of it has examined (`Subtree.Examined`), and charging a tree to
a footprint adds exactly that (`Subtree.charge_spec`).
-/

namespace Packrat

namespace Subtree

variable {P : Subtree → Prop}

mutual

/-- To show something of every tree, it can be assumed of the children of a node. -/
theorem induct (step : ∀ info children, (∀ c ∈ children, P c) → P (.node info children)) :
    ∀ t, P t
  | .node info children => step info children (inductAll step children)

theorem inductAll (step : ∀ info children, (∀ c ∈ children, P c) → P (.node info children)) :
    ∀ ts : List Subtree, ∀ t ∈ ts, P t
  | [] => fun _ h => by cases h
  | t :: ts => fun u h => (List.mem_cons.1 h).elim (fun e => e ▸ induct step t)
      (inductAll step ts u)

end

mutual

/-- The nodes of a tree in preorder. -/
def nodes : Subtree → List NodeInfo
  | node info children => info :: nodesAll children

def nodesAll : List Subtree → List NodeInfo
  | [] => []
  | t :: ts => nodes t ++ nodesAll ts

end

theorem nodesAll_eq (ts : List Subtree) : nodesAll ts = ts.flatMap nodes := by
  induction ts with
  | nil => rfl
  | cons t ts ih => simp only [nodesAll, List.flatMap_cons, ih]

theorem nodes_node (info : NodeInfo) (children : List Subtree) :
    (node info children).nodes = info :: children.flatMap nodes := by rw [nodes, nodesAll_eq]

theorem mem_nodes_node {info i : NodeInfo} {children : List Subtree} :
    i ∈ (node info children).nodes ↔ i = info ∨ ∃ c ∈ children, i ∈ c.nodes := by
  rw [nodes_node, List.mem_cons, List.mem_flatMap]

theorem info_mem_nodes (t : Subtree) : t.info ∈ t.nodes := by
  cases t with
  | node info children => exact mem_nodes_node.2 (.inl rfl)

theorem mem_nodes_of_child {t c : Subtree} (hc : c ∈ t.children) {i : NodeInfo} (hi : i ∈ c.nodes) :
    i ∈ t.nodes := by
  cases t with
  | node info children => exact mem_nodes_node.2 (.inr ⟨c, hc, hi⟩)

/-! ### What was examined -/

/-- Some node of the tree has examined the offset. -/
def Examined (t : Subtree) (x : Nat) : Prop := ∃ i ∈ t.nodes, i.reads.mem x

theorem examined_node {info : NodeInfo} {children : List Subtree} {x : Nat} :
    (node info children).Examined x ↔ info.reads.mem x ∨ ∃ c ∈ children, c.Examined x := by
  simp only [Examined, mem_nodes_node]
  constructor
  · rintro ⟨i, rfl | ⟨c, hc, hi⟩, hx⟩
    · exact .inl hx
    · exact .inr ⟨c, hc, i, hi, hx⟩
  · rintro (hx | ⟨c, hc, i, hi, hx⟩)
    · exact ⟨info, .inl rfl, hx⟩
    · exact ⟨i, .inr ⟨c, hc, hi⟩, hx⟩

/-- The reads of every node are in order. -/
def Orderly (t : Subtree) : Prop := ∀ i ∈ t.nodes, i.reads.Ordered

theorem orderly_node {info : NodeInfo} {children : List Subtree} :
    (node info children).Orderly ↔ info.reads.Ordered ∧ ∀ c ∈ children, c.Orderly := by
  simp only [Orderly, mem_nodes_node, or_imp, forall_and, forall_eq]
  exact and_congr_right fun _ =>
    ⟨fun h c hc i hi => h i ⟨c, hc, hi⟩, fun h i ⟨c, hc, hi⟩ => h c hc i hi⟩

theorem chargeAll_spec {ts : List Subtree}
    (ih : ∀ t ∈ ts, ∀ f : Footprint, f.Ordered → t.Orderly →
      (t.charge f).Ordered ∧ ∀ x, (t.charge f).mem x ↔ f.mem x ∨ t.Examined x)
    {f : Footprint} (hf : f.Ordered) (hts : ∀ t ∈ ts, t.Orderly) :
    (chargeAll f ts).Ordered
      ∧ ∀ x, (chargeAll f ts).mem x ↔ f.mem x ∨ ∃ t ∈ ts, t.Examined x := by
  induction ts generalizing f with
  | nil => exact ⟨hf, by simp [chargeAll]⟩
  | cons t ts ihts =>
    rw [chargeAll]
    obtain ⟨h₁, h₂⟩ := ih t (by simp) f hf (hts t (by simp))
    obtain ⟨h₃, h₄⟩ := ihts (fun u hu => ih u (by simp [hu])) h₁ fun u hu => hts u (by simp [hu])
    refine ⟨h₃, fun x => ?_⟩
    rw [h₄ x, h₂ x, or_assoc]
    simp only [List.mem_cons, exists_eq_or_imp]

/-- Charging a tree adds what was examined for it. -/
theorem charge_spec {t : Subtree} (ht : t.Orderly) {f : Footprint} (hf : f.Ordered) :
    (t.charge f).Ordered ∧ ∀ x, (t.charge f).mem x ↔ f.mem x ∨ t.Examined x := by
  induction t using induct generalizing f with
  | step info children ih =>
    obtain ⟨hinfo, hchildren⟩ := orderly_node.1 ht
    obtain ⟨h₁, h₂⟩ := Footprint.merge_spec hf hinfo
    obtain ⟨h₃, h₄⟩ := chargeAll_spec (fun c hc f hf hc' => ih c hc hc' hf) h₁ hchildren
    rw [charge]
    refine ⟨h₃, fun x => ?_⟩
    rw [h₄ x, h₂ x, or_assoc, examined_node]

end Subtree

end Packrat
