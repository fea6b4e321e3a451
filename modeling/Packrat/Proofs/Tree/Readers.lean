import Packrat.Document
import Packrat.Proofs.Tree.Graft
import Packrat.Proofs.Tree.Leaves

/-!
Who has examined a stretch of the text.

Looking for readers lets the nodes that are met catch up and changes nothing else
(`Tree.readers_sameView`); the same holds of the choice of the nodes that an edit may be patched into
(`Document.candidates_sameView`).

The search passes over a subtree whose extent misses the stretch.  Where the extents cover what was
examined (`Tree.Guarded`) it finds every reader (`Tree.readersFrom_eq`).  The extent of the root does
not matter: if it misses the stretch, there are no readers, and nothing is patched.  So everything that
an edit is patched into has all the readers of the edited stretch below it (`Document.candidates_spec`).
-/

namespace Packrat

namespace Tree

variable {t t' : Tree} {sh : Shape} {parent : Option Nat} {a b : Nat}

mutual

theorem readersFrom_sameView (start stop : Nat) : ∀ (fuel id : Nat) (t : Tree),
    SameView t (readersFrom start stop fuel id t).2
  | 0, _, t => by
    rw [readersFrom]
    exact .refl t
  | fuel + 1, id, t => by
    rw [readersFrom]
    dsimp only
    split
    · exact catchUp_sameView t id
    · next s _ =>
      split
      · exact (catchUp_sameView t id).trans (readersAmong_sameView start stop fuel s.children _)
      · exact catchUp_sameView t id

theorem readersAmong_sameView (start stop : Nat) (fuel : Nat) : ∀ (ids : List Nat) (t : Tree),
    SameView t (readersAmong start stop fuel ids t).2
  | [], t => by
    rw [readersAmong]
    exact .refl t
  | id :: ids, t => by
    rw [readersAmong]
    exact (readersFrom_sameView start stop fuel id t).trans
      (readersAmong_sameView start stop fuel ids _)

end

theorem readers_sameView (t : Tree) (start stop : Nat) : SameView t (t.readers start stop).2 :=
  readersFrom_sameView start stop _ _ t

/-! ### Extents -/

/-- The extent of a node, as it is seen now. -/
def extentAt (t : Tree) (id : Nat) : Extent := ((t.node? id).map (·.extent)).getD {}

/-- The extent of a node starts where the node was asked for and covers what was examined for it. -/
def Guards (t : Tree) (sh : Shape) : Prop :=
  ∀ x, (t.subtree sh).Examined x → (t.extentAt sh.id).start = (t.infoAt sh.id).invoked
    ∧ (t.infoAt sh.id).invoked ≤ x ∧ x < (t.extentAt sh.id).stop

/-- The extents of all nodes do so. -/
inductive Guarded (t : Tree) : Shape → Prop
  | node {id : Nat} {children : List Shape} : t.Guards (.node id children) →
      (∀ c ∈ children, Guarded t c) → Guarded t (.node id children)

theorem Guarded.guards (h : t.Guarded sh) : t.Guards sh := by
  cases h with | node h _ => exact h

theorem Guarded.children (h : t.Guarded sh) : ∀ c ∈ sh.children, t.Guarded c := by
  cases h with | node _ h => exact h

/-- What is seen decides. -/
theorem Guarded.congr (h : t.Guarded sh) (hnode : ∀ j ∈ sh.ids, t'.node? j = t.node? j) :
    t'.Guarded sh := by
  induction sh using Shape.induct with
  | step id children ih =>
    have hinfo : ∀ j ∈ (Shape.node id children).ids, t'.infoAt j = t.infoAt j := fun j hj => by
      unfold infoAt
      rw [hnode j hj]
    refine .node (fun x hx => ?_) fun c hc => ?_
    · rw [subtree_congr hinfo] at hx
      have := h.guards x hx
      unfold extentAt
      rw [hnode _ (Shape.id_mem_ids _), hinfo _ (Shape.id_mem_ids _)]
      exact this
    · exact ih c hc (h.children c hc) fun j hj => hnode j (Shape.mem_ids_of_child hc hj)

/-- What the nodes of a shape have examined. -/
theorem examined_subtree {x : Nat} :
    (t.subtree sh).Examined x ↔ ∃ j ∈ sh.ids, (t.infoAt j).reads.mem x := by
  simp only [Subtree.Examined, nodes_subtree, List.mem_map, exists_exists_and_eq_and]

theorem orderly_subtree :
    (t.subtree sh).Orderly ↔ ∀ j ∈ sh.ids, (t.infoAt j).reads.Ordered := by
  simp only [Subtree.Orderly, nodes_subtree, List.forall_mem_map]

/-! ### The search for readers -/

/-- A node has examined part of a stretch itself. -/
def Reads (t : Tree) (a b id : Nat) : Prop := (t.infoAt id).reads.intersects a b = true

/-- The readers of a stretch among the nodes of a shape, in preorder. -/
def readersIn (t : Tree) (a b : Nat) (sh : Shape) : List Nat :=
  sh.ids.filter fun j => (t.infoAt j).reads.intersects a b

theorem mem_readersIn {j : Nat} : j ∈ t.readersIn a b sh ↔ j ∈ sh.ids ∧ t.Reads a b j :=
  List.mem_filter

theorem readersAmong_eq {shs : List Shape} {fuel : Nat}
    (h : ∀ c ∈ shs, ∀ t', SameView t t' → (readersFrom a b fuel c.id t').1 = t.readersIn a b c)
    (hview : SameView t t') :
    (readersAmong a b fuel (shs.map Shape.id) t').1 = shs.flatMap (t.readersIn a b) := by
  induction shs generalizing t' with
  | nil => rw [List.map_nil, readersAmong, List.flatMap_nil]
  | cons c shs ih =>
    have hfirst := h c List.mem_cons_self t' hview
    have hrest := ih (fun c hc => h c (List.mem_cons_of_mem _ hc))
      (hview.trans (readersFrom_sameView a b fuel c.id t'))
    rw [List.map_cons, readersAmong, List.flatMap_cons]
    dsimp only
    rw [hfirst, hrest]

theorem Linked.node?_eq (h : t.Linked parent sh) :
    ∃ s, t.node? sh.id = some s ∧ s.parent = parent ∧ s.children = sh.children.map Shape.id
      ∧ s.extent = t.extentAt sh.id := by
  cases sh with
  | node id children =>
    obtain ⟨⟨slot, hslot, hparent, hchildren⟩, -⟩ := linked_node.1 h
    have hnode := node?_eq_some hslot
    have hlinks := current_links t slot
    refine ⟨_, hnode, hlinks.1.trans hparent, hlinks.2.trans hchildren, ?_⟩
    unfold extentAt
    rw [show (Shape.node id children).id = id from rfl, hnode]
    rfl

theorem readersFrom_of_misses {id fuel : Nat} {s : Slot} (hs : t.node? id = some s)
    (hmeets : s.extent.meets a b = false) : (readersFrom a b (fuel + 1) id t).1 = [] := by
  have hslot : (t.catchUp id).slots[id]? = some s := by rw [getElem?_catchUp, if_pos rfl, hs]
  rw [readersFrom]
  simp only [hslot, hmeets, Bool.false_eq_true, if_false]

/-- The search at a node, if it finds all readers below the node and the node is not passed over
because of its extent while there are readers. -/
theorem readersFrom_node {id fuel : Nat} {children : List Shape} {s : Slot}
    (hs : t.node? id = some s) (hchildren : s.children = children.map Shape.id)
    (hmisses : s.extent.meets a b = false → ∀ j ∈ (Shape.node id children).ids, ¬t.Reads a b j)
    (h : ∀ c ∈ children, ∀ t', SameView t t' → (readersFrom a b fuel c.id t').1 = t.readersIn a b c)
    (hview : SameView t t') :
    (readersFrom a b (fuel + 1) id t').1 = t.readersIn a b (.node id children) := by
  have hnode : t'.node? id = some s := (hview.node?_eq id).trans hs
  cases hmeets : s.extent.meets a b with
  | false =>
    rw [readersFrom_of_misses hnode hmeets]
    exact (List.filter_eq_nil_iff.2 (hmisses hmeets)).symm
  | true =>
    have hslot : (t'.catchUp id).slots[id]? = some s := by rw [getElem?_catchUp, if_pos rfl, hnode]
    have hreads : (t.infoAt id).reads = s.info.reads := by rw [infoAt_of_node? hs]
    have hbelow := readersAmong_eq h (hview.trans (catchUp_sameView t' id))
    rw [readersFrom, readersIn, Shape.ids_node, List.filter_cons, hreads, List.filter_flatMap]
    simp only [hslot, hmeets, if_true, hchildren]
    rw [hbelow]
    rfl

/-- A node whose extent covers what was examined for it is passed over only if there are no readers. -/
theorem not_reads_of_misses {x : Extent} (hcovers : ∀ z, (t.subtree sh).Examined z →
    x.start ≤ z ∧ z < x.stop) (horderly : (t.subtree sh).Orderly) (hmeets : x.meets a b = false) :
    ∀ j ∈ sh.ids, ¬t.Reads a b j := by
  intro j hj hreads
  obtain ⟨z, h₁, h₂, hz⟩ := (Footprint.intersects_iff (orderly_subtree.1 horderly j hj)).1 hreads
  obtain ⟨h₃, h₄⟩ := hcovers z (examined_subtree.2 ⟨j, hj, hz⟩)
  simp only [Extent.meets, Bool.and_eq_false_iff, decide_eq_false_iff_not] at hmeets
  omega

theorem orderly_child {id : Nat} {children : List Shape} {c : Shape} (hc : c ∈ children)
    (h : (t.subtree (.node id children)).Orderly) : (t.subtree c).Orderly :=
  orderly_subtree.2 fun j hj => orderly_subtree.1 h j (Shape.mem_ids_of_child hc hj)

/-- Where the extents cover what was examined, the search finds all readers. -/
theorem readersFrom_eq (h : t.Linked parent sh) (hguarded : t.Guarded sh)
    (horderly : (t.subtree sh).Orderly) {fuel : Nat} (hfuel : sh.height ≤ fuel)
    (hview : SameView t t') : (readersFrom a b fuel sh.id t').1 = t.readersIn a b sh := by
  induction sh using Shape.induct generalizing parent fuel t' with
  | step id children ih =>
    obtain ⟨s, hs, -, hchildren, hextent⟩ := h.node?_eq
    have hbelow := (linked_node.1 h).2
    rw [Shape.height] at hfuel
    obtain ⟨fuel, rfl⟩ : ∃ k, fuel = k + 1 := ⟨fuel - 1, by omega⟩
    refine readersFrom_node hs hchildren (not_reads_of_misses (fun z hz => ?_) horderly)
      (fun c hc t₁ hview₁ => ?_) hview
    · obtain ⟨h₁, h₂, h₃⟩ := hguarded.guards z hz
      rw [hextent, h₁]
      exact ⟨h₂, h₃⟩
    · have hheight : c.height ≤ Shape.heightAll children := Shape.height_le_heightAll hc
      exact ih c hc (hbelow c hc) (hguarded.children c hc) (orderly_child hc horderly) (by omega) hview₁

/-- The search from the root on, if the root is not passed over while there are readers. -/
theorem Arranged.readers_eq (h : t.Arranged sh) (hguarded : ∀ c ∈ sh.children, t.Guarded c)
    (horderly : (t.subtree sh).Orderly)
    (hmisses : (t.extentAt sh.id).meets a b = false → ∀ j ∈ sh.ids, ¬t.Reads a b j) :
    (t.readers a b).1 = t.readersIn a b sh := by
  have hheight := h.height_le
  unfold readers
  rw [← h.root]
  cases sh with
  | node id children =>
    obtain ⟨s, hs, -, hchildren, hextent⟩ := h.linked.node?_eq
    have hbelow := (linked_node.1 h.linked).2
    rw [Shape.height] at hheight
    obtain ⟨fuel, hfuel⟩ : ∃ k, t.slots.size = k + 1 := ⟨t.slots.size - 1, by omega⟩
    rw [hfuel] at hheight ⊢
    rw [← hextent] at hmisses
    refine readersFrom_node hs hchildren hmisses (fun c hc t₁ hview₁ => ?_) (.refl t)
    have hle : c.height ≤ Shape.heightAll children := Shape.height_le_heightAll hc
    exact readersFrom_eq (hbelow c hc) (hguarded c hc) (orderly_child hc horderly) (by omega) hview₁

/-- If anybody is found from the root on, then everybody is; the extent of the root does not matter. -/
theorem Arranged.mem_readers (h : t.Arranged sh) (hguarded : ∀ c ∈ sh.children, t.Guarded c)
    (horderly : (t.subtree sh).Orderly) (hne : (t.readers a b).1 ≠ []) {j : Nat} :
    j ∈ (t.readers a b).1 ↔ j ∈ sh.ids ∧ t.Reads a b j := by
  rw [h.readers_eq hguarded horderly, mem_readersIn]
  -- a root that is passed over leaves nobody to be found
  intro hmeets
  obtain ⟨s, hs, -, -, hextent⟩ := h.linked.node?_eq
  obtain ⟨fuel, hfuel⟩ : ∃ k, t.slots.size = k + 1 := by
    have := h.lt_size sh.id_mem_ids
    exact ⟨t.slots.size - 1, by omega⟩
  rw [← hextent] at hmeets
  refine absurd ?_ hne
  unfold readers
  rw [← h.root, hfuel]
  exact readersFrom_of_misses hs hmeets

/-! ### Common ancestors -/

open Shape

/-- The way up from a place passes the node that holds it. -/
theorem exists_split {ls : List Level} {sub : Shape} {a : Nat} (h : a ∈ sub.id :: ls.map Level.id) :
    ∃ ls₁ ls₂, ls = ls₁ ++ ls₂ ∧ (plug ls₁ sub).id = a := by
  rcases List.mem_cons.1 h with rfl | h
  · exact ⟨[], ls, rfl, rfl⟩
  · obtain ⟨l, hl, rfl⟩ := List.mem_map.1 h
    obtain ⟨ls₁, ls₂, rfl⟩ := List.append_of_mem hl
    exact ⟨ls₁ ++ [l], ls₂, by simp, by rw [plug_append]; rfl⟩

/-- One node stands above another, or is it. -/
def Above (t : Tree) (a b : Nat) : Prop := ∃ path, t.lineage? b = some path ∧ a ∈ path

section Above

variable (h : t.Arranged sh)

include h

/-- The way up from a node: to some place that holds the node, and on to the root. -/
theorem Arranged.exists_place {a j : Nat} (hj : j ∈ sh.ids) (ha : t.Above a j) :
    ∃ ls sub, sh = plug ls sub ∧ sub.id = a ∧ j ∈ sub.ids
      ∧ ∀ b ∈ a :: ls.map Level.id, t.Above b j := by
  obtain ⟨ls, sub, rfl, rfl⟩ := exists_plug hj
  obtain ⟨path, hpath, ha⟩ := ha
  obtain rfl : sub.id :: ls.map Level.id = path := Option.some.inj (h.lineage?_eq.symm.trans hpath)
  obtain ⟨ls₁, ls₂, rfl, rfl⟩ := exists_split ha
  refine ⟨ls₂, plug ls₁ sub, plug_append _ _ _, rfl, mem_ids_plug.2 (.inl sub.id_mem_ids), ?_⟩
  intro b hb
  refine ⟨_, hpath, ?_⟩
  rcases List.mem_cons.1 hb with rfl | hb
  · exact ha
  · rw [List.map_append]
    exact List.mem_cons_of_mem _ (List.mem_append_right _ hb)

theorem Arranged.above_self {j : Nat} (hj : j ∈ sh.ids) : t.Above j j := by
  obtain ⟨ls, sub, rfl, rfl⟩ := exists_plug hj
  exact ⟨_, h.lineage?_eq, List.mem_cons_self⟩

theorem Arranged.above_root {j : Nat} (hj : j ∈ sh.ids) : t.Above t.root j := by
  obtain ⟨ls, sub, rfl, rfl⟩ := exists_plug hj
  refine ⟨_, h.lineage?_eq, ?_⟩
  rw [← h.root, id_plug]
  cases hlast : (ls.map Level.id).getLast? with
  | none => exact List.mem_cons_self
  | some id => exact List.mem_cons_of_mem _ (List.mem_of_getLast? hlast)

theorem Arranged.above_mem {a j : Nat} (hj : j ∈ sh.ids) (ha : t.Above a j) : a ∈ sh.ids := by
  obtain ⟨ls, sub, rfl, rfl, -, -⟩ := h.exists_place hj ha
  exact mem_ids_plug.2 (.inl sub.id_mem_ids)

theorem Arranged.above_trans {a b j : Nat} (hj : j ∈ sh.ids) (hab : t.Above a b)
    (hbj : t.Above b j) : t.Above a j := by
  obtain ⟨ls, sub, rfl, rfl, -, hup⟩ := h.exists_place hj hbj
  obtain ⟨path, hpath, ha⟩ := hab
  obtain rfl : sub.id :: ls.map Level.id = path := Option.some.inj (h.lineage?_eq.symm.trans hpath)
  exact hup a ha

/-- What a place holds is read off the tree. -/
theorem Arranged.ids_eq {ls : List Level} {sub : Shape} (heq : sh = plug ls sub) :
    sub.ids = t.preorderFrom t.slots.size sub.id := by
  subst heq
  exact ((linked_plug.1 h.linked).1.preorderFrom_eq h.height_le_of_plug).symm

/-- What a node stands above is what its place holds. -/
theorem Arranged.mem_of_above {ls : List Level} {sub : Shape} (heq : sh = plug ls sub) {j : Nat}
    (hj : j ∈ sh.ids) (ha : t.Above sub.id j) : j ∈ sub.ids := by
  obtain ⟨ls', sub', heq', hid, hmem, -⟩ := h.exists_place hj ha
  rwa [h.ids_eq heq, ← hid, ← h.ids_eq heq']

/-- The way up from a node on the way up from another one is the rest of that way. -/
theorem Arranged.lineage?_of_append {c j : Nat} {as bs : List Nat} (hj : j ∈ sh.ids)
    (hpath : t.lineage? j = some (as ++ c :: bs)) : t.lineage? c = some (c :: bs) := by
  obtain ⟨ls, sub, rfl, rfl⟩ := exists_plug hj
  have heq : sub.id :: ls.map Level.id = as ++ c :: bs := Option.some.inj (h.lineage?_eq.symm.trans hpath)
  rcases List.cons_eq_append_iff.1 heq with ⟨-, hcons⟩ | ⟨as', -, hlevels⟩
  · obtain ⟨rfl, rfl⟩ := List.cons.inj hcons
    exact h.lineage?_eq
  · obtain ⟨ls₁, ls', rfl, -, hrest⟩ := List.map_eq_append_iff.1 hlevels
    obtain ⟨l, ls₂, rfl, rfl, rfl⟩ := List.map_eq_cons_iff.1 hrest
    rw [List.append_cons, plug_append, plug_append] at h
    exact h.lineage?_eq

/-- The common ancestor of two nodes is the lowest node above both: what stands above it is what stands
above both of them. -/
theorem Arranged.commonAncestor?_spec {a b : Nat} (ha : a ∈ sh.ids) (hb : b ∈ sh.ids) :
    ∃ c ∈ sh.ids, t.commonAncestor? a b = some c
      ∧ ∀ x, t.Above x c ↔ t.Above x a ∧ t.Above x b := by
  obtain ⟨path, hpath, -⟩ := h.above_self ha
  obtain ⟨path', hpath', -⟩ := h.above_self hb
  have habove : ∀ {x j p}, t.lineage? j = some p → (t.Above x j ↔ x ∈ p) := fun {x j p} hp =>
    ⟨fun ⟨p', hp', hx⟩ => by rwa [← Option.some.inj (hp'.symm.trans hp)], fun hx => ⟨p, hp, hx⟩⟩
  have hcommon : t.commonAncestor? a b = some ((path'.find? path.contains).getD t.root) := by
    unfold commonAncestor?
    rw [hpath, hpath']
    rfl
  cases hfind : path'.find? path.contains with
  | none =>
    -- the root stands above both
    have hroot := List.find?_eq_none.1 hfind t.root ((habove hpath').1 (h.above_root hb))
    rw [List.contains_iff_mem] at hroot
    exact absurd ((habove hpath).1 (h.above_root ha)) hroot
  | some c =>
    rw [hfind, Option.getD_some] at hcommon
    obtain ⟨hc, as, bs, rfl, hlower⟩ := List.find?_eq_some_iff_append.1 hfind
    have hca : t.Above c a := (habove hpath).2 (List.contains_iff_mem.1 hc)
    have hcb : t.Above c b := (habove hpath').2 (by simp)
    refine ⟨c, h.above_mem ha hca, hcommon, fun x =>
      ⟨fun hx => ⟨h.above_trans ha hx hca, h.above_trans hb hx hcb⟩, fun ⟨hxa, hxb⟩ => ?_⟩⟩
    rw [habove (h.lineage?_of_append hb hpath')]
    -- nobody below it on the way up stands above the other node
    refine (List.mem_append.1 ((habove hpath').1 hxb)).resolve_left fun hin => ?_
    have hnot := hlower x hin
    rw [Bool.not_eq_true', ← Bool.not_eq_true, List.contains_iff_mem] at hnot
    exact hnot ((habove hpath).1 hxa)

/-- The lowest node above several ones, found by one step after the other. -/
theorem Arranged.foldlM_commonAncestor?_spec {ids : List Nat} (hids : ∀ j ∈ ids, j ∈ sh.ids) {a : Nat}
    (ha : a ∈ sh.ids) :
    ∃ c ∈ sh.ids, ids.foldlM t.commonAncestor? a = some c
      ∧ ∀ x, t.Above x c ↔ t.Above x a ∧ ∀ j ∈ ids, t.Above x j := by
  induction ids generalizing a with
  | nil => exact ⟨a, ha, rfl, fun x => by simp⟩
  | cons b ids ih =>
    obtain ⟨m, hm, hcommon, habove⟩ := h.commonAncestor?_spec ha (hids b List.mem_cons_self)
    obtain ⟨c, hc, hfold, habove'⟩ := ih (fun j hj => hids j (List.mem_cons_of_mem _ hj)) hm
    refine ⟨c, hc, ?_, fun x => ?_⟩
    · rw [List.foldlM_cons, hcommon]
      exact hfold
    · rw [habove', habove, List.forall_mem_cons, and_assoc]

/-- The same if the root stands in for an ancestor that is not found. -/
theorem Arranged.foldl_commonAncestor?_above {ids : List Nat} (hids : ∀ j ∈ ids, j ∈ sh.ids) {a : Nat}
    (ha : a ∈ sh.ids) {c : Nat}
    (hc : c = ids.foldl (fun a b => (t.commonAncestor? a b).getD t.root) a) :
    t.Above c a ∧ ∀ j ∈ ids, t.Above c j := by
  have hfold : ∀ {ids : List Nat} {a c : Nat}, ids.foldlM t.commonAncestor? a = some c →
      ids.foldl (fun a b => (t.commonAncestor? a b).getD t.root) a = c := by
    intro ids
    induction ids with
    | nil => exact fun h => Option.some.inj h
    | cons b ids ih =>
      intro a c h
      obtain ⟨m, hm, hrest⟩ := Option.bind_eq_some_iff.1 ((List.foldlM_cons).symm.trans h)
      rw [List.foldl_cons, hm]
      exact ih hrest
  obtain ⟨c', hmem, hfound, habove⟩ := h.foldlM_commonAncestor?_spec hids ha
  rw [hfold hfound] at hc
  subst hc
  exact (habove c).1 (h.above_self hmem)

/-- A node stands above those that its place holds. -/
theorem Arranged.above_of_mem {ls : List Level} {sub : Shape} (heq : sh = plug ls sub) {j : Nat}
    (hj : j ∈ sub.ids) : t.Above sub.id j := by
  subst heq
  obtain ⟨ls', sub', rfl, rfl⟩ := exists_plug hj
  rw [← plug_append] at h
  refine ⟨_, h.lineage?_eq, ?_⟩
  rw [id_plug, List.map_append]
  cases hlast : (ls'.map Level.id).getLast? with
  | none => exact List.mem_cons_self
  | some id =>
    exact List.mem_cons_of_mem _ (List.mem_append_left _ (List.mem_of_getLast? hlast))

/-- The nodes of the subtree of a node are those that it stands above. -/
theorem Arranged.mem_preorderFrom {a j : Nat} (ha : a ∈ sh.ids) (hj : j ∈ sh.ids) :
    j ∈ t.preorderFrom t.slots.size a ↔ t.Above a j := by
  obtain ⟨ls, sub, heq, rfl⟩ := exists_plug ha
  rw [← h.ids_eq heq]
  exact ⟨h.above_of_mem heq, h.mem_of_above heq hj⟩

end Above

end Tree

namespace Document

open Shape

/-- The end of the stretch whose readers an edit concerns. -/
def touched (e : Edit) : Nat := max e.stop (e.offset + 1)

theorem candidates_sameView (t : Tree) (e : Edit) : Tree.SameView t (candidates t e).2 := by
  have hview := t.readers_sameView e.offset (max e.stop (e.offset + 1))
  unfold candidates
  dsimp only
  split
  · exact .refl t
  · split
    · next heq => rwa [heq] at hview
    · next heq => rwa [heq] at hview

/-- A node that an edit may be patched into stands below the root and holds all readers of the edited
stretch, of which there are some; nobody else has examined it. -/
theorem candidates_spec {t : Tree} {sh : Shape} (h : t.Arranged sh)
    (hguarded : ∀ c ∈ sh.children, t.Guarded c) (horderly : (t.subtree sh).Orderly) {e : Edit}
    {id : Nat} (hid : id ∈ (candidates t e).1) :
    t.documentReads.intersects e.offset (touched e) = false ∧ id ≠ t.root
      ∧ ∃ ls sub, sh = plug ls sub ∧ sub.id = id
        ∧ (∀ j ∈ outer ls, ¬t.Reads e.offset (touched e) j)
        ∧ ∃ j ∈ sub.ids, t.Reads e.offset (touched e) j := by
  unfold candidates at hid
  dsimp only at hid
  have hview := t.readers_sameView e.offset (touched e)
  have hmem : ∀ hne : (t.readers e.offset (touched e)).1 ≠ [], ∀ j, _ :=
    fun hne j => h.mem_readers (j := j) hguarded horderly hne
  split at hid
  · cases hid
  · next hdocument =>
    change ¬t.documentReads.intersects e.offset (touched e) = true at hdocument
    split at hid
    · cases hid
    · next first rest t' heq =>
      change t.readers e.offset (touched e) = _ at heq
      rw [heq] at hview hmem
      replace hmem := hmem (List.cons_ne_nil _ _)
      have harranged := hview.arranged h
      dsimp only at hid
      generalize hlowest : rest.foldl (fun a b => (t'.commonAncestor? a b).getD t'.root) first
        = lowest at hid
      have hids : ∀ j ∈ first :: rest, j ∈ sh.ids := fun j hj => ((hmem j).1 hj).1
      have hfirst := hids first List.mem_cons_self
      obtain ⟨habove, hall⟩ := harranged.foldl_commonAncestor?_above
        (fun j hj => hids j (List.mem_cons_of_mem _ hj)) hfirst hlowest.symm
      -- the node stands above the lowest one, so above all readers
      have hup : t'.Above id lowest := by
        obtain ⟨path, hpath, -⟩ := harranged.above_self (harranged.above_mem hfirst habove)
        rw [hpath, Option.getD_some] at hid
        exact ⟨path, hpath, (List.takeWhile_sublist _).subset hid⟩
      have hreaders : ∀ j ∈ first :: rest, t'.Above id j := by
        intro j hj
        refine harranged.above_trans (hids j hj) hup ?_
        rcases List.mem_cons.1 hj with rfl | hj
        · exact habove
        · exact hall j hj
      obtain ⟨ls, sub, hplug, rfl⟩ :=
        exists_plug (harranged.above_mem hfirst (hreaders first List.mem_cons_self))
      have hsub : ∀ j ∈ first :: rest, j ∈ sub.ids :=
        fun j hj => harranged.mem_of_above hplug (hids j hj) (hreaders j hj)
      refine ⟨by simpa using hdocument, ?_, ls, sub, hplug, rfl, fun j hj hreads => ?_, first,
        hsub first List.mem_cons_self, ((hmem first).1 List.mem_cons_self).2⟩
      · have := List.all_eq_true.1 List.all_takeWhile sub.id hid
        rw [hview.root] at this
        simpa using this
      · subst hplug
        have hin := (hmem j).2 ⟨mem_ids_plug.2 (.inr hj), hreads⟩
        exact h.not_mem_outer (hsub j hin) hj

end Document

end Packrat
