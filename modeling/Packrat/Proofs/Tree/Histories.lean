import Packrat.Proofs.Tree.Answers
import Mathlib.Logic.Relation

/-!
Histories of a live tree.

A live tree is patched and looked at in any order, and its log is emptied now and then (`Op`,
`performAll`).  The limit at which a patch empties the log is a parameter; `Tree.graft` is a patch with
the limit `pendingLimit` (`perform_graft`).

Whatever happens to a fresh tree, as long as patches are about nodes that it has, it stays arranged:
there is a shape that its links agree with, and the numbers of the shape and the free ones are all
slots, each of them once (`Arranged.performAll`).

Main statement (`Tree.performAll_slots`): the nodes that can be reached from the root and the free slots
share the slots among themselves, and a patch puts a copy of its replacement in the place of a subtree
and leaves every other node alone.
-/

namespace Packrat

namespace Tree

open Shape

variable {t g : Tree} {sh sub : Shape} {ls : List Level} {parent : Option Nat} {limit : Nat}

/-! ### Operations -/

/-- What can happen to a live tree. -/
inductive Op where
  /-- An edit is applied and a subtree is replaced. -/
  | graft (target : Nat) (replacement : Subtree) (e : Edit)
  /-- A node is looked at. -/
  | look (j : Nat)
  /-- The log is emptied. -/
  | compact

/-- The node whose subtree is replaced. -/
def Op.target? : Op → Option Nat
  | .graft target _ _ => some target
  | .look _ | .compact => none

/-- Empties the log when it has reached the limit. -/
def settle (limit : Nat) (t : Tree) : Tree := if limit ≤ t.pending.size then t.compact else t

/-- The tree after an operation. -/
def perform (limit : Nat) (t : Tree) : Op → Tree
  | .graft target replacement e => (t.grafted target replacement e).settle limit
  | .look j => t.catchUp j
  | .compact => t.compact

/-- The tree after a history of operations. -/
def performAll (limit : Nat) (t : Tree) (ops : List Op) : Tree := ops.foldl (perform limit) t

/-- Every patch is about a node that the tree has at that moment. -/
def OnNodes (limit : Nat) : Tree → List Op → Prop
  | _, [] => True
  | t, op :: ops => (∀ id ∈ op.target?, id ∈ t.preorder) ∧ OnNodes limit (t.perform limit op) ops

instance decidableOnNodes (limit : Nat) : (t : Tree) → (ops : List Op) → Decidable (OnNodes limit t ops)
  | _, [] => .isTrue trivial
  | t, op :: ops =>
    have := decidableOnNodes limit (t.perform limit op) ops
    inferInstanceAs
      (Decidable ((∀ id ∈ op.target?, id ∈ t.preorder) ∧ OnNodes limit (t.perform limit op) ops))

theorem perform_graft (t : Tree) (target : Nat) (replacement : Subtree) (e : Edit) :
    t.perform pendingLimit (.graft target replacement e) = t.graft target replacement e :=
  (graft_eq t target replacement e).symm

/-! ### Emptying the log -/

theorem node?_settle (limit : Nat) (t : Tree) (id : Nat) : (t.settle limit).node? id = t.node? id := by
  unfold settle
  split
  · exact node?_compact t id
  · rfl

theorem Arranged.settle (h : t.Arranged sh) (limit : Nat) : (t.settle limit).Arranged sh := by
  unfold Tree.settle
  split
  · exact h.compact
  · exact h

theorem subtree_settle (limit : Nat) (t : Tree) (sh : Shape) :
    (t.settle limit).subtree sh = t.subtree sh :=
  subtree_congr fun id _ => by
    unfold infoAt
    rw [node?_settle]

/-! ### Arrangement through a history -/

/-- An operation on a node of the tree leaves an arranged tree behind. -/
theorem Arranged.perform (h : t.Arranged sh) {op : Op} (hop : ∀ id ∈ op.target?, id ∈ t.preorder) :
    ∃ sh', (t.perform limit op).Arranged sh' := by
  cases op with
  | graft target replacement e =>
    have hmem := hop target rfl
    rw [h.preorder_eq] at hmem
    obtain ⟨ls, sub, rfl, rfl⟩ := exists_plug hmem
    obtain ⟨sub', hg⟩ := grafted_spec h e replacement
    exact ⟨plug ls sub', hg.arranged.settle limit⟩
  | look j => exact ⟨sh, (catchUp_sameView t j).arranged h⟩
  | compact => exact ⟨sh, h.compact⟩

theorem Arranged.performAll {ops : List Op} (h : t.Arranged sh) (hops : OnNodes limit t ops) :
    ∃ sh', (t.performAll limit ops).Arranged sh' := by
  induction ops generalizing t sh with
  | nil => exact ⟨sh, h⟩
  | cons op ops ih =>
    obtain ⟨sh', h'⟩ := h.perform hops.1
    exact ih h' hops.2

/-! ### Following the children -/

/-- A node can be reached from another one by following the children. -/
def Leads (t : Tree) : (id id' : Nat) → Prop := Relation.ReflTransGen fun a b => b ∈ t.children a

theorem Linked.mem_ids_of_mem_children (h : t.Linked parent sh) {a b : Nat} (ha : a ∈ sh.ids)
    (hb : b ∈ t.children a) : b ∈ sh.ids := by
  induction sh using Shape.induct generalizing parent with
  | step id children ih =>
    have hbelow := (linked_node.1 h).2
    rw [ids_node, List.mem_cons, List.mem_flatMap] at ha
    rcases ha with rfl | ⟨c, hc, ha⟩
    · have hids := h.children_eq
      rw [show (Shape.node a children).id = a from rfl] at hids
      rw [hids] at hb
      obtain ⟨c, hc, rfl⟩ := List.mem_map.1 hb
      exact mem_ids_of_child hc c.id_mem_ids
    · exact mem_ids_of_child hc (ih c hc (hbelow c hc) ha)

/-- The nodes of a shape are those that can be reached from its top. -/
theorem Linked.leads_iff (h : t.Linked parent sh) {id : Nat} : t.Leads sh.id id ↔ id ∈ sh.ids := by
  constructor
  · intro hleads
    induction hleads with
    | refl => exact sh.id_mem_ids
    | tail _ hstep ih => exact h.mem_ids_of_mem_children ih hstep
  · intro hid
    induction sh using Shape.induct generalizing parent with
    | step top children ih =>
      rw [ids_node, List.mem_cons, List.mem_flatMap] at hid
      rcases hid with rfl | ⟨c, hc, hid⟩
      · exact .refl
      · refine .head ?_ (ih c hc ((linked_node.1 h).2 c hc) hid)
        rw [h.children_eq]
        exact List.mem_map_of_mem hc

/-! ### What a patch does to the nodes -/

/-- Two nodes are alike but for their place in the text. -/
structure SameNode (s s' : Slot) : Prop where
  type : s'.info.type = s.info.type
  value : s'.info.value = s.info.value
  parent : s'.parent = s.parent
  children : s'.children = s.children

theorem sameNode_current (t g : Tree) (s : Slot) : SameNode (t.current s) (g.current s) where
  type := (current_name g s).1.trans (current_name t s).1.symm
  value := (current_name g s).2.trans (current_name t s).2.symm
  parent := (current_links g s).1.trans (current_links t s).1.symm
  children := (current_links g s).2.trans (current_links t s).2.symm

/-- What becomes of a tree `t` when the subtree of a node is replaced: the node stays where it is, its
subtree is a copy of the replacement, and the nodes outside of the subtree stay alike. -/
structure Replaced (t : Tree) (target : Nat) (replacement : Subtree) (g : Tree) : Prop where
  leads : g.Leads g.root target
  parent : g.parent? target = t.parent? target
  copy : g.subtree? target = some replacement
  others : ∀ id, t.Leads t.root id → ¬t.Leads target id →
    g.Leads g.root id ∧ ∃ s s', t.node? id = some s ∧ g.node? id = some s' ∧ SameNode s s'

/-- The nodes outside of the place stay alike. -/
theorem Grafted.sameNode {sub' : Shape} {replacement : Subtree} {e : Edit}
    (hg : Grafted t ls sub replacement e g sub') (h : t.Arranged (plug ls sub)) {id : Nat}
    (hid : id ∈ outer ls) : ∃ s s', t.node? id = some s ∧ g.node? id = some s' ∧ SameNode s s' := by
  by_cases hlevel : ∃ l ∈ ls, l.id = id
  · obtain ⟨l, hl, rfl⟩ := hlevel
    obtain ⟨s, hs, hslot⟩ := hg.level l hl
    refine ⟨s, _, hs, node?_eq_some hslot, ?_⟩
    rw [current_of_seen (by exact rfl)]
    exact ⟨rfl, rfl, rfl, rfl⟩
  · push Not at hlevel
    have hslot := Array.getElem?_eq_getElem (h.lt_size (mem_ids_plug.2 (.inr hid)))
    exact ⟨_, _, node?_eq_some hslot, node?_eq_some ((hg.beside id hid hlevel).trans hslot),
      sameNode_current t g _⟩

theorem Arranged.replaced (h : t.Arranged sh) {target : Nat} (htarget : t.Leads t.root target)
    (replacement : Subtree) (e : Edit) :
    Replaced t target replacement (t.graft target replacement e) := by
  rw [← h.root, h.linked.leads_iff] at htarget
  obtain ⟨ls, sub, rfl, rfl⟩ := exists_plug htarget
  obtain ⟨sub', hg⟩ := grafted_spec h e replacement
  rw [← perform_graft]
  have harranged : (t.perform pendingLimit (.graft sub.id replacement e)).Arranged (plug ls sub') :=
    hg.arranged.settle pendingLimit
  have hcopy : (t.perform pendingLimit (.graft sub.id replacement e)).subtree sub' = replacement :=
    (subtree_settle pendingLimit _ sub').trans (hg.grown.subtree_eq rfl)
  have hnode : ∀ id, (t.perform pendingLimit (.graft sub.id replacement e)).node? id
      = (t.grafted sub.id replacement e).node? id := node?_settle pendingLimit _
  generalize t.perform pendingLimit (.graft sub.id replacement e) = g at harranged hcopy hnode ⊢
  have hlinked := (linked_plug.1 h.linked).1
  have hlinked' := (linked_plug.1 harranged.linked).1
  have hleads : ∀ id, g.Leads g.root id ↔ id ∈ (plug ls sub').ids := fun id => by
    rw [← harranged.root]
    exact harranged.linked.leads_iff
  refine ⟨?_, ?_, ?_, fun id hid hbelow => ?_⟩
  · rw [hleads, ← hg.id]
    exact mem_ids_plug.2 (.inl sub'.id_mem_ids)
  · rw [hlinked.parent?_eq, ← hg.id, hlinked'.parent?_eq]
  · have hlt := harranged.lt_size (mem_ids_plug.2 (.inl sub'.id_mem_ids))
    unfold subtree?
    rw [← hg.id, if_pos hlt, subtreeFrom_eq hlinked' harranged.height_le_of_plug, hcopy]
  · rw [← h.root, h.linked.leads_iff] at hid
    rw [hlinked.leads_iff] at hbelow
    have houter := (mem_ids_plug.1 hid).resolve_left hbelow
    rw [hleads, hnode]
    exact ⟨mem_ids_plug.2 (.inr houter), hg.sameNode h houter⟩

/-- **Nodes and free slots share the slots.** Whatever happens to a fresh tree, as every parse returns
one, the nodes that can be reached from the root and the free slots are different, none of them is
listed twice, and together they are all slots; the preorder lists the nodes that can be reached, and the
size counts them.  The next patch of a node keeps number, type, value, parent and children of all nodes
outside of the subtree, and puts a copy of the replacement below the parent of the node. -/
theorem performAll_slots (source : Source) (reads : Footprint) (s : Subtree) {ops : List Op}
    (hops : OnNodes pendingLimit (ofSubtree source reads s) ops) (t : Tree)
    (ht : t = (ofSubtree source reads s).performAll pendingLimit ops) :
    ((∀ id, t.Leads t.root id ↔ id ∈ t.preorder)
        ∧ (t.preorder ++ t.free).Nodup
        ∧ (∀ id, id ∈ t.preorder ++ t.free ↔ id < t.slots.size)
        ∧ t.size = t.preorder.length)
      ∧ ∀ target replacement e, t.Leads t.root target →
          Replaced t target replacement (t.graft target replacement e) := by
  subst ht
  obtain ⟨sh₀, -, h₀, -⟩ := ofSubtree_spec source reads s
  obtain ⟨sh, h⟩ := h₀.performAll hops
  generalize (ofSubtree source reads s).performAll pendingLimit ops = t at h ⊢
  refine ⟨⟨fun id => ?_, ?_, fun id => ?_, ?_⟩, fun target replacement e htarget =>
    h.replaced htarget replacement e⟩
  · rw [← h.root, h.linked.leads_iff, h.preorder_eq]
  · rw [h.preorder_eq]
    exact h.nodup
  · rw [h.preorder_eq, h.perm.mem_iff, List.mem_range]
  · have hlen := h.perm.length_eq
    rw [List.length_append, List.length_range] at hlen
    rw [h.preorder_eq]
    unfold size
    omega

/-! ### A subtree that grows and shrinks -/

/-- A leaf `a` over `[start, start + 1)`. -/
def leafAt (start : Nat) : Subtree :=
  .node { type := Bytes.ascii "a", start, stop := start + 1, invoked := start,
          reads := Footprint.empty.add start (start + 1) } []

/-- Two leaves below a node. -/
def pairTree : Tree :=
  ofSubtree (.ofBytes (Bytes.ascii "++")) .empty
    (.node { type := Bytes.ascii "s", stop := 2 } [leafAt 0, leafAt 1])

/-- The first leaf is replaced by a node with two leaves and then by a leaf again. -/
def pairOps : List Op :=
  [.graft 1 (.node { type := Bytes.ascii "b", stop := 2 } [leafAt 0, leafAt 1]) ⟨0, 0, Bytes.ascii "+"⟩,
    .look 2, .graft 1 (leafAt 0) ⟨0, 1, []⟩]

/-- Two slots are left over, and the next patch of the second leaf leaves the first one alone. -/
theorem performAll_pairOps_slots :
    OnNodes pendingLimit pairTree pairOps
      ∧ (pairTree.performAll pendingLimit pairOps).preorder = [0, 1, 2]
      ∧ (pairTree.performAll pendingLimit pairOps).free = [4, 3]
      ∧ (pairTree.performAll pendingLimit pairOps).size = 3
      ∧ Replaced (pairTree.performAll pendingLimit pairOps) 2 (leafAt 1)
          ((pairTree.performAll pendingLimit pairOps).graft 2 (leafAt 1) ⟨1, 1, Bytes.ascii "-"⟩) := by
  have hops : OnNodes pendingLimit pairTree pairOps := by decide +kernel
  have hpreorder : (pairTree.performAll pendingLimit pairOps).preorder = [0, 1, 2] := by decide +kernel
  obtain ⟨⟨hleads, -, -, hsize⟩, hgraft⟩ := performAll_slots _ _ _ hops _ rfl
  refine ⟨hops, hpreorder, by decide +kernel, ?_, hgraft 2 (leafAt 1) _ ?_⟩
  · exact hsize.trans (congrArg List.length hpreorder)
  · exact (hleads 2).2 (hpreorder.symm ▸ by simp)

end Tree

end Packrat
