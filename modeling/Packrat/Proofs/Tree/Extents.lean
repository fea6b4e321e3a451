import Packrat.Proofs.Parse.Watch
import Packrat.Proofs.Tree.Readers

/-!
What an extent covers.

The extent of a new tree covers everything that was examined for it and starts at something that was
(`Extent.Fits`, `Subtree.fits_extent`).  So in a tree of watchful nodes that was planted just now the
extents start where the nodes were asked for (`Tree.Grown.guarded`).
-/

namespace Packrat

namespace Extent

variable {S S' : Nat → Prop} {x y : Extent} {b z : Nat}

/-- An offset lies in the stretch. -/
def Holds (x : Extent) (z : Nat) : Prop := x.start ≤ z ∧ z < x.stop

/-- What covers two stretches is one of them, or starts and ends with them. -/
theorem cover_cases (x y : Extent) :
    y.stop ≤ y.start ∧ x.cover y = x
      ∨ x.stop ≤ x.start ∧ y.start < y.stop ∧ x.cover y = y
      ∨ x.start < x.stop ∧ y.start < y.stop ∧ x.cover y = ⟨min x.start y.start, max x.stop y.stop⟩ := by
  unfold cover isEmpty
  simp only [decide_eq_true_eq]
  split
  · next h => exact .inl ⟨h, rfl⟩
  · split
    · next h h' => exact .inr (.inl ⟨h', by omega, rfl⟩)
    · next h h' => exact .inr (.inr ⟨by omega, by omega, rfl⟩)

theorem holds_cover (h : x.Holds z ∨ y.Holds z) : (x.cover y).Holds z := by
  unfold Holds at h ⊢
  obtain ⟨h₁, heq⟩ | ⟨h₁, h₂, heq⟩ | ⟨h₁, h₂, heq⟩ := cover_cases x y
  · rw [heq]
    omega
  · rw [heq]
    omega
  · rw [heq]
    dsimp only
    omega

theorem cover_stop_lt (hx : x.stop < b) (hy : y.stop < b) : (x.cover y).stop < b := by
  obtain ⟨-, heq⟩ | ⟨-, -, heq⟩ | ⟨-, -, heq⟩ := cover_cases x y
  · rwa [heq]
  · rwa [heq]
  · rw [heq]
    exact Nat.max_lt.2 ⟨hx, hy⟩

/-- The stretch covers a set, and if it is not empty it starts in the set. -/
structure Fits (S : Nat → Prop) (x : Extent) : Prop where
  holds : ∀ z, S z → x.Holds z
  start : x.start < x.stop → S x.start

theorem Fits.cover (hx : x.Fits S) (hy : y.Fits S') : (x.cover y).Fits fun z => S z ∨ S' z := by
  refine ⟨fun z hz => holds_cover (hz.imp (hx.holds z) (hy.holds z)), fun hne => ?_⟩
  obtain ⟨-, heq⟩ | ⟨-, -, heq⟩ | ⟨h₁, h₂, heq⟩ := cover_cases x y
  · rw [heq] at hne ⊢
    exact .inl (hx.start hne)
  · rw [heq] at hne ⊢
    exact .inr (hy.start hne)
  · rw [heq]
    show S (min x.start y.start) ∨ S' (min x.start y.start)
    rcases Nat.le_total x.start y.start with hle | hle
    · rw [Nat.min_eq_left hle]
      exact .inl (hx.start h₁)
    · rw [Nat.min_eq_right hle]
      exact .inr (hy.start h₂)

theorem Fits.congr (hx : x.Fits S) (h : ∀ z, S' z ↔ S z) : x.Fits S' :=
  ⟨fun z hz => hx.holds z ((h z).1 hz), fun hne => (h _).2 (hx.start hne)⟩

theorem fits_empty : Fits (fun _ => False) {} :=
  ⟨fun _ h => h.elim, fun h => absurd h (Nat.lt_irrefl 0)⟩

/-- A set with a beginning has its extent start there. -/
theorem Fits.start_eq {o : Nat} (hx : x.Fits S) (h : Begins o S) (hz : S z) : x.start = o := by
  obtain ⟨-, ho⟩ := h z hz
  obtain ⟨h₁, h₂⟩ := hx.holds o ho
  have h₃ := (h _ (hx.start (by omega))).1
  omega

theorem fits_ofFootprint (f : Footprint) : (ofFootprint f).Fits f.mem := by
  have key : ∀ (spans : List (Nat × Nat)) (x : Extent) (S : Nat → Prop), x.Fits S →
      (spans.foldl (fun x s => x.cover ⟨s.1, s.2⟩) x).Fits
        fun z => S z ∨ ∃ s ∈ spans, s.1 ≤ z ∧ z < s.2 := by
    intro spans
    induction spans with
    | nil => exact fun x S hx => hx.congr fun z => by simp
    | cons s spans ih =>
      intro x S hx
      have hspan : Fits (fun z => s.1 ≤ z ∧ z < s.2) ⟨s.1, s.2⟩ :=
        ⟨fun z hz => hz, fun hne => ⟨Nat.le_refl _, hne⟩⟩
      refine (ih _ _ (hx.cover hspan)).congr fun z => ?_
      simp only [List.mem_cons, exists_eq_or_imp, or_assoc]
  unfold ofFootprint
  rw [← Array.foldl_toList]
  refine (key f.spans.toList _ _ fits_empty).congr fun z => ?_
  simp [Footprint.mem]

theorem ofFootprint_stop_lt {f : Footprint} (h : ∀ s ∈ f.spans.toList, s.2 < b) (hb : 0 < b) :
    (ofFootprint f).stop < b := by
  unfold ofFootprint
  rw [← Array.foldl_toList]
  refine List.foldlRecOn f.spans.toList _ (motive := fun x : Extent => x.stop < b) hb ?_
  exact fun x hx s hs => cover_stop_lt hx (h s hs)

end Extent

/-- The spans of a footprint in order end right behind the last member. -/
theorem Footprint.Ordered.span_le {f : Footprint} (hf : f.Ordered) {n : Nat} (h : ∀ x, f.mem x → x ≤ n) :
    ∀ s ∈ f.spans.toList, s.2 ≤ n + 1 := by
  intro s hs
  have hne := hf.1 s hs
  have := h (s.2 - 1) ⟨s, Array.mem_toList_iff.1 hs, by omega, by omega⟩
  omega

namespace Subtree

variable {t : Subtree}

theorem extentAll_eq (x : Extent) (ts : List Subtree) :
    extentAll x ts = ts.foldl (fun x t => x.cover t.extent) x := by
  induction ts generalizing x with
  | nil => rw [extentAll]; rfl
  | cons t ts ih => rw [extentAll, ih, List.foldl_cons]

theorem extent_node (info : NodeInfo) (children : List Subtree) :
    (node info children).extent
      = children.foldl (fun x t => x.cover t.extent) (.ofFootprint info.reads) := by
  rw [extent, extentAll_eq]

/-- The extent of a tree covers what was examined for it. -/
theorem fits_extent (t : Subtree) : t.extent.Fits t.Examined := by
  induction t using induct with
  | step info children ih =>
    have key : ∀ (ts : List Subtree) (x : Extent) (S : Nat → Prop), (∀ t ∈ ts, t ∈ children) →
        x.Fits S → (ts.foldl (fun x t => x.cover t.extent) x).Fits
          fun z => S z ∨ ∃ t ∈ ts, t.Examined z := by
      intro ts
      induction ts with
      | nil => exact fun x S _ hx => hx.congr fun z => by simp
      | cons t ts ihts =>
        intro x S hts hx
        refine (ihts _ _ (fun t ht => hts t (List.mem_cons_of_mem _ ht))
          (hx.cover (ih t (hts t List.mem_cons_self)))).congr fun z => ?_
        simp only [List.mem_cons, exists_eq_or_imp, or_assoc]
    rw [extent_node]
    exact (key children _ _ (fun _ h => h) (Extent.fits_ofFootprint info.reads)).congr
      fun z => examined_node

theorem extent_stop_lt {b : Nat} (hb : 0 < b)
    (h : ∀ i ∈ t.nodes, ∀ s ∈ i.reads.spans.toList, s.2 < b) : t.extent.stop < b := by
  induction t using induct with
  | step info children ih =>
    rw [extent_node]
    refine List.foldlRecOn children _ (motive := fun x : Extent => x.stop < b)
      (Extent.ofFootprint_stop_lt (h info (info_mem_nodes _)) hb) ?_
    exact fun x hx c hc => Extent.cover_stop_lt hx
      (ih c hc fun i hi => h i (mem_nodes_of_child hc hi))

end Subtree

namespace Tree

variable {t : Tree} {version : Nat}

/-- A node that was planted just now has the extent of its subtree. -/
theorem Grown.extentAt_eq (hversion : version = t.version) {sh : Shape} {s : Subtree}
    {parent : Option Nat} (h : t.Grown version parent sh s) : t.extentAt sh.id = s.extent := by
  cases sh with
  | node id shs =>
    cases s with
    | node info children =>
      rw [Grown] at h
      unfold extentAt node?
      rw [show (Shape.node id shs).id = id from rfl, h.1, Option.map_some,
        current_of_seen (by exact hversion)]
      rfl

mutual

theorem Grown.guarded (hversion : version = t.version) : ∀ {sh : Shape} {s : Subtree}
    {parent : Option Nat}, t.Grown version parent sh s → s.Watchful → t.Guarded sh
  | .node id shs, .node info children, parent, h, hw => by
    have hsubtree := h.subtree_eq hversion
    have hextent := h.extentAt_eq hversion
    rw [Grown] at h
    refine .node (fun x hx => ?_) (GrownAll.guarded hversion h.2 hw.children)
    have hinfo : t.infoAt id = info := by
      rw [subtree_node] at hsubtree
      exact (Subtree.node.inj hsubtree).1
    rw [hsubtree] at hx
    have hfits := (Subtree.node info children).fits_extent
    rw [hextent, show (Shape.node id shs).id = id from rfl, hinfo]
    exact ⟨hfits.start_eq hw.begins hx, (hw.begins x hx).1, (hfits.holds x hx).2⟩

theorem GrownAll.guarded (hversion : version = t.version) : ∀ {shs : List Shape} {ss : List Subtree}
    {parent : Nat}, t.GrownAll version parent shs ss → (∀ s ∈ ss, s.Watchful) →
    ∀ sh ∈ shs, t.Guarded sh
  | [], [], _, _, _ => by simp
  | sh :: shs, s :: ss, parent, h, hw => by
    rw [GrownAll] at h
    intro sh' hsh'
    rcases List.mem_cons.1 hsh' with heq | hsh'
    · exact heq ▸ Grown.guarded hversion h.1 (hw s List.mem_cons_self)
    · exact GrownAll.guarded hversion h.2 (fun s hs => hw s (List.mem_cons_of_mem _ hs)) sh' hsh'
  | [], _ :: _, _, h, _ => by simp [GrownAll] at h
  | _ :: _, [], _, h, _ => by simp [GrownAll] at h

end

mutual

theorem Grown.extentAt_stop_lt (hversion : version = t.version) {b : Nat} (hb : 0 < b) :
    ∀ {sh : Shape} {s : Subtree} {parent : Option Nat}, t.Grown version parent sh s →
    (∀ i ∈ s.nodes, ∀ s ∈ i.reads.spans.toList, s.2 < b) → ∀ j ∈ sh.ids, (t.extentAt j).stop < b
  | .node id shs, .node info children, parent, h, hs => by
    have hextent := h.extentAt_eq hversion
    rw [Grown] at h
    intro j hj
    rw [Shape.ids] at hj
    rcases List.mem_cons.1 hj with rfl | hj
    · rw [show t.extentAt j = _ from hextent]
      exact Subtree.extent_stop_lt hb hs
    · exact GrownAll.extentAt_stop_lt hversion hb h.2
        (fun c hc i hi => hs i (Subtree.mem_nodes_of_child hc hi)) j hj

theorem GrownAll.extentAt_stop_lt (hversion : version = t.version) {b : Nat} (hb : 0 < b) :
    ∀ {shs : List Shape} {ss : List Subtree} {parent : Nat}, t.GrownAll version parent shs ss →
    (∀ c ∈ ss, ∀ i ∈ c.nodes, ∀ s ∈ i.reads.spans.toList, s.2 < b) →
    ∀ j ∈ Shape.idsAll shs, (t.extentAt j).stop < b
  | [], [], _, _, _ => by simp [Shape.idsAll]
  | sh :: shs, s :: ss, parent, h, hs => by
    rw [GrownAll] at h
    intro j hj
    rw [Shape.idsAll] at hj
    rcases List.mem_append.1 hj with hj | hj
    · exact Grown.extentAt_stop_lt hversion hb h.1 (hs s List.mem_cons_self) j hj
    · exact GrownAll.extentAt_stop_lt hversion hb h.2
        (fun c hc => hs c (List.mem_cons_of_mem _ hc)) j hj
  | [], _ :: _, _, h, _ => by simp [GrownAll] at h
  | _ :: _, [], _, h, _ => by simp [GrownAll] at h

end

end Tree

end Packrat
