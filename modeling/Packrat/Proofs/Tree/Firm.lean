import Packrat.Proofs.Tree.Displaced
import Packrat.Proofs.Tree.Extents

/-!
Live trees that hold together.

In a firm tree (`Tree.Firm`) the nodes lie inside each other and inside the text; whatever lies up to
the end of the root was examined, by a node that stands around it or outside of all nodes; and the
extents tell who has examined what.  A patch keeps a tree firm (`Tree.Firm.graft`): an edit is patched
into a node that holds all readers of the edited stretch, so all other nodes lie in front of the edit or
behind it and are carried along as a whole.

The one delicate place is the end of the node that is replaced.  Text inserted there would push the node
into what follows it; but somebody outside of the node has looked at the end, so such an edit has a
reader outside (`Tree.Firm.offset_lt_stop`).
-/

namespace Packrat

theorem Footprint.Avoids.spares {f : Footprint} {e : Edit} (h : f.Avoids e) {x : Nat} (hx : f.mem x) :
    e.Spares x ∧ x ≠ e.offset := by
  have : ¬(e.offset ≤ x ∧ x < max (e.offset + e.oldLength) (e.offset + 1)) :=
    fun ⟨h₁, h₂⟩ => h x h₁ h₂ hx
  unfold Edit.Spares
  omega

/-- The reads of a node that has not examined the edited stretch are carried along. -/
theorem NodeInfo.Displaced.mem_reads {e : Edit} {u : Text} {i i' : NodeInfo} (h : i.Displaced e i')
    (hfits : e.Fits u) (hordered : i.reads.Ordered) (hle : ∀ x, i.reads.mem x → x ≤ u.size)
    (havoids : i.reads.Avoids e) :
    i'.reads.Ordered ∧ ∀ y, i'.reads.mem y ↔ ∃ x, i.reads.mem x ∧ e.carry x = y := by
  rw [h.reads]
  exact Footprint.shift_spec hordered hfits (hordered.span_le hle) havoids

/-- A node of a text that lies in front of an edit or behind it, or reaches from one side to the other,
and is carried along. -/
structure NodeInfo.Carried (e : Edit) (u : Text) (i i' : NodeInfo) : Prop extends i.Displaced e i' where
  spares_invoked : e.Spares i.invoked
  spares_start : e.Spares i.start
  spares_stop : e.Spares i.stop
  stop_le : i.stop ≤ u.size

/-- A node with its children, all of them carried along. -/
theorem Subtree.Nested.carry {e : Edit} {u : Text} {i i' : NodeInfo} {cs cs' : List Subtree}
    (h : (Subtree.node i cs).Nested) (hfits : e.Fits u) (hi : i.Carried e u i')
    (hspares : ∀ c ∈ cs, e.Spares c.info.invoked ∧ e.Spares c.info.stop)
    (hcs : cs'.map (fun c => (c.info.invoked, c.info.stop))
      = cs.map fun c => (e.carry c.info.invoked, e.carry c.info.stop))
    (hnested : ∀ c ∈ cs', c.Nested) : (Subtree.node i' cs').Nested := by
  have hmax : ∀ {x}, x ≤ u.size → x < u.size + Text.maxSize := fun hx => by
    simp only [Text.maxSize]
    omega
  have hstop := hi.stop_le
  cases h with
  | node h₁ h₂ h₃ h₄ h₅ =>
    have hbounds : ∀ c ∈ cs, c.info.invoked ≤ c.info.stop ∧ c.info.stop ≤ u.size := fun c hc => by
      have := (h₅ c hc).invoked_le
      have := (h₅ c hc).start_le
      have := (h₃ c hc).2
      omega
    refine .node ?_ ?_ (fun c' hc' => ?_) ?_ hnested
    · rw [hi.invoked, hi.start]
      exact hfits.shift_mono hi.spares_invoked (hmax (by omega)) h₁
    · rw [hi.start, hi.stop]
      exact hfits.shift_mono hi.spares_start (hmax hstop) h₂
    · obtain ⟨c, hc, heq⟩ := List.mem_map.1 (hcs ▸ List.mem_map_of_mem hc' :
        (c'.info.invoked, c'.info.stop) ∈ cs.map _)
      obtain ⟨heq₁, heq₂⟩ := Prod.mk.inj heq
      obtain ⟨h₆, h₇⟩ := hbounds c hc
      rw [← heq₁, ← heq₂, hi.start, hi.stop]
      exact ⟨hfits.shift_mono hi.spares_start (hmax (by omega)) (h₃ c hc).1,
        hfits.shift_mono (hspares c hc).2 (hmax hstop) (h₃ c hc).2⟩
    · have hpairs : (cs'.map fun c => (c.info.invoked, c.info.stop)).Pairwise
          fun p q => p.2 ≤ q.1 := by
        rw [hcs, List.pairwise_map]
        refine h₄.imp_of_mem fun {c c'} hc hc' hle => ?_
        have := hbounds c' hc'
        exact hfits.shift_mono (hspares c hc).2 (hmax (by omega)) hle
      exact List.pairwise_map.1 hpairs

namespace Tree

open Shape Parse

variable {t g : Tree} {sh sub sub' : Shape} {ls : List Level} {e : Edit} {replacement : Subtree}

theorem infoAt_mem_nodes {j : Nat} (hj : j ∈ sh.ids) : t.infoAt j ∈ (t.subtree sh).nodes := by
  rw [nodes_subtree]
  exact List.mem_map_of_mem hj

/-! ### Places in nested trees -/

/-- The nodes outside of a place stand above it, in front of it or behind it. -/
theorem nested_outer (h : (t.subtree (plug ls sub)).Nested) :
    (t.subtree sub).Nested
      ∧ (∀ l ∈ ls, (t.infoAt l.id).start ≤ (t.infoAt sub.id).invoked
          ∧ (t.infoAt sub.id).stop ≤ (t.infoAt l.id).stop)
      ∧ ∀ j ∈ outer ls, (∃ l ∈ ls, l.id = j) ∨ (t.infoAt j).stop ≤ (t.infoAt sub.id).invoked
          ∨ (t.infoAt sub.id).stop ≤ (t.infoAt j).invoked := by
  induction ls generalizing sub with
  | nil => exact ⟨h, by simp, by simp [outer]⟩
  | cons l ls ih =>
    obtain ⟨hnode, hlevels, houter⟩ := ih h
    rw [subtree_node] at hnode
    cases hnode with
    | node h₁ h₂ h₃ h₄ h₅ =>
      simp only [List.map_append, List.map_cons, List.pairwise_append,
        List.pairwise_cons, List.mem_append, List.mem_cons, List.mem_map, or_imp, forall_and,
        forall_eq, forall_exists_index, and_imp, forall_apply_eq_imp_iff₂, info_subtree] at h₃ h₄ h₅
      obtain ⟨h₆, h₇⟩ := h₃
      have hid : (Shape.node l.id (l.left ++ sub :: l.right)).id = l.id := rfl
      rw [hid] at hlevels houter
      refine ⟨h₅.2.1, fun l' hl' => ?_, fun j hj => ?_⟩
      · rcases List.mem_cons.1 hl' with rfl | hl'
        · exact ⟨h₆.2.1, h₇.2.1⟩
        · have := hlevels l' hl'
          have := h₆.2.1
          have := h₇.2.1
          omega
      · rcases mem_outer_cons.1 hj with rfl | ⟨c, hc, hj⟩ | hj
        · exact .inl ⟨l, List.mem_cons_self, rfl⟩
        · right
          rcases List.mem_append.1 hc with hc | hc
          · left
            have := ((h₅.1 c hc).nodes_within _ (infoAt_mem_nodes hj)).2.2.2
            rw [info_subtree] at this
            exact Nat.le_trans this (h₄.2.2.1 c hc)
          · right
            have := ((h₅.2.2 c hc).nodes_within _ (infoAt_mem_nodes hj)).1
            rw [info_subtree] at this
            exact Nat.le_trans (h₄.2.1.1 c hc) this
        · have := h₆.2.1
          have := h₇.2.1
          rcases houter j hj with ⟨l', hl', rfl⟩ | h | h
          · exact .inl ⟨l', List.mem_cons_of_mem _ hl', rfl⟩
          · right; left; omega
          · right; right; omega

/-! ### Firm trees -/

/-- A live tree that holds together. -/
structure Firm (gr : Grammar) (t : Tree) (sh : Shape) : Prop where
  arranged : t.Arranged sh
  nested : (t.subtree sh).Nested
  stop_le : (t.infoAt sh.id).stop ≤ t.source.size
  orderly : (t.subtree sh).Orderly
  examined_le : ∀ x, (t.subtree sh).Examined x → x ≤ t.source.size
  licensed : ∀ i ∈ (t.subtree sh).nodes, i.Licensed gr
  ordered : t.documentReads.Ordered
  reads_le : ∀ x, t.documentReads.mem x → x ≤ t.source.size
  seen : ∀ x, x ≤ (t.infoAt sh.id).stop → t.documentReads.mem x ∨ (t.subtree sh).Sees x
  guarded : ∀ c ∈ sh.children, t.Guarded c
  bounded : ∀ j ∈ sh.ids, (t.extentAt j).stop < t.source.size + Text.maxSize

variable {gr : Grammar}

/-- What is seen of a tree decides. -/
theorem Firm.congr (h : t.Firm gr sh) (harranged : g.Arranged sh)
    (hnode : ∀ j, g.node? j = t.node? j) (hsource : g.source = t.source)
    (hreads : g.documentReads = t.documentReads) : g.Firm gr sh := by
  have hinfo : ∀ j, g.infoAt j = t.infoAt j := fun j => by
    unfold infoAt
    rw [hnode]
  have hextent : ∀ j, g.extentAt j = t.extentAt j := fun j => by
    unfold extentAt
    rw [hnode]
  have hsubtree : g.subtree sh = t.subtree sh := subtree_congr fun j _ => hinfo j
  refine ⟨harranged, ?_, ?_, ?_, ?_, ?_, ?_, ?_, ?_, ?_, ?_⟩
  · rw [hsubtree]
    exact h.nested
  · rw [hinfo, hsource]
    exact h.stop_le
  · rw [hsubtree]
    exact h.orderly
  · rw [hsubtree, hsource]
    exact h.examined_le
  · rw [hsubtree]
    exact h.licensed
  · rw [hreads]
    exact h.ordered
  · rw [hreads, hsource]
    exact h.reads_le
  · rw [hinfo, hreads, hsubtree]
    exact h.seen
  · exact fun c hc => (h.guarded c hc).congr fun j _ => hnode j
  · simp only [hextent, hsource]
    exact h.bounded

/-- Letting nodes catch up keeps a tree firm. -/
theorem Firm.sameView (h : t.Firm gr sh) (hview : SameView t g) : g.Firm gr sh :=
  h.congr (hview.arranged h.arranged) hview.node?_eq hview.source hview.documentReads

/-- Emptying the log keeps a tree firm. -/
theorem Firm.compact (h : t.Firm gr sh) : t.compact.Firm gr sh :=
  h.congr h.arranged.compact t.node?_compact rfl rfl

/-- The tree of a fresh parse is firm. -/
theorem firm_of_accepts {ctx : Context} {start : Bytes} {root : Subtree} {reads : Footprint}
    (h : Accepts ctx start root.flat reads) :
    ∃ sh, (ofSubtree ctx.source reads root).Firm ctx.grammar sh := by
  obtain ⟨sh, -, harranged, hgrown⟩ := ofSubtree_spec ctx.source reads root
  have hversion := (version_ofSubtree ctx.source reads root).symm
  have hsource := source_ofSubtree ctx.source reads root
  have hreads := documentReads_ofSubtree ctx.source reads root
  generalize ofSubtree ctx.source reads root = t at harranged hgrown hversion hsource hreads
  have hsubtree : t.subtree sh = root := hgrown.subtree_eq hversion
  have hsettled := h.settled
  obtain ⟨hwatchful, hlicensed⟩ := h.watchful
  have hexamined : ∀ x, root.Examined x → x ≤ t.source.size := fun x hx => by
    rw [hsource]
    exact hsettled.examined_le x ((Subtree.examined_flat root x).2 hx)
  have horderly : root.Orderly := (Subtree.orderly_flat root).1 hsettled.orderly
  have hinfo : root.flat.info.stop = root.info.stop := by rw [Subtree.info_flat]; rfl
  have hstop := hsettled.stop_le
  have hseen := hsettled.seen
  rw [hinfo] at hstop hseen
  refine ⟨sh, harranged, ?_, ?_, ?_, ?_, ?_, ?_, ?_, ?_, ?_, ?_⟩
  · rw [hsubtree]
    exact Subtree.nested_flat.1 h.nested
  · rw [← info_subtree, hsubtree, hsource]
    exact hstop
  · rwa [hsubtree]
  · rwa [hsubtree]
  · rw [hsubtree]
    exact Subtree.licensed_flat.1 hlicensed
  · rw [hreads]
    exact hsettled.ordered
  · rw [hreads, hsource]
    exact hsettled.reads_le
  · rw [← info_subtree, hsubtree, hreads]
    exact fun x hx => (hseen x hx).imp_right Subtree.sees_flat.1
  · cases sh with
    | node id shs =>
      cases root with
      | node info children =>
        rw [Grown] at hgrown
        refine hgrown.2.guarded hversion fun c hc => Subtree.watchful_flat.1 (hwatchful _ ?_)
        rw [Subtree.children_flat]
        exact List.mem_map_of_mem hc
  · refine hgrown.extentAt_stop_lt hversion (by simp only [Text.maxSize]; omega) fun i hi s hs => ?_
    have := (horderly i hi).span_le (fun x hx => hexamined x ⟨i, hi, hx⟩) s hs
    simp only [Text.maxSize]
    omega

/-! ### Edits that can be patched -/

/-- An edit can be patched into the node at a place: the node stands below the root, encloses the edit
and holds all those, of whom there are some, who have examined the edited stretch. -/
structure Targeted (t : Tree) (ls : List Level) (sub : Shape) (e : Edit) : Prop where
  fits : e.Fits t.source.text
  ne_nil : ls ≠ []
  invoked_le : (t.infoAt sub.id).invoked ≤ e.offset
  le_stop : e.offset + e.oldLength ≤ (t.infoAt sub.id).stop
  document : t.documentReads.Avoids e
  outer : ∀ j ∈ outer ls, (t.infoAt j).reads.Avoids e
  inner : ∃ x, e.offset ≤ x ∧ (t.subtree sub).Examined x

theorem Targeted.sameView (ht : t.Targeted ls sub e) (hview : SameView t g) : g.Targeted ls sub e where
  fits := by rw [hview.source]; exact ht.fits
  ne_nil := ht.ne_nil
  invoked_le := by rw [hview.infoAt_eq]; exact ht.invoked_le
  le_stop := by rw [hview.infoAt_eq]; exact ht.le_stop
  document := by rw [hview.documentReads]; exact ht.document
  outer := fun j hj => by rw [hview.infoAt_eq]; exact ht.outer j hj
  inner := by rw [hview.subtree_eq]; exact ht.inner

section Targeted

variable (h : t.Firm gr (plug ls sub)) (ht : t.Targeted ls sub e)

include h

theorem Firm.stop_le_size {j : Nat} (hj : j ∈ (plug ls sub).ids) :
    (t.infoAt j).stop ≤ t.source.size := by
  have := (h.nested.nodes_within _ (infoAt_mem_nodes hj)).2.2.2
  rw [info_subtree] at this
  exact Nat.le_trans this h.stop_le

theorem Firm.node_le {j : Nat} (hj : j ∈ (plug ls sub).ids) :
    (t.infoAt j).invoked ≤ (t.infoAt j).start ∧ (t.infoAt j).start ≤ (t.infoAt j).stop :=
  have hwithin := h.nested.nodes_within _ (infoAt_mem_nodes hj)
  ⟨hwithin.2.1, hwithin.2.2.1⟩

/-- What somebody sees at a place is seen inside of it or by a node outside. -/
theorem Firm.seen_outer {x : Nat} (hx : x ≤ (t.infoAt (plug ls sub).id).stop) :
    t.documentReads.mem x
      ∨ (∃ j ∈ Shape.outer ls, (t.infoAt j).reads.mem x ∧ (t.infoAt j).invoked ≤ x
          ∧ x < (t.infoAt j).stop)
      ∨ (t.infoAt sub.id).invoked ≤ x ∧ x < (t.infoAt sub.id).stop := by
  rcases h.seen x hx with hx | ⟨i, hi, hread, hinvoked, hstop⟩
  · exact .inl hx
  · rw [nodes_subtree] at hi
    obtain ⟨j, hj, rfl⟩ := List.mem_map.1 hi
    rcases mem_ids_plug.1 hj with hj | hj
    · have := (nested_outer h.nested).1.nodes_within _ (infoAt_mem_nodes hj)
      rw [info_subtree] at this
      exact .inr (.inr ⟨by omega, by omega⟩)
    · exact .inr (.inl ⟨j, hj, hread, hinvoked, hstop⟩)

theorem Firm.sub_stop_le :
    (t.infoAt sub.id).stop ≤ (t.infoAt (plug ls sub).id).stop := by
  have := h.nested.nodes_within _ (infoAt_mem_nodes (mem_ids_plug.2 (.inl sub.id_mem_ids)))
  rw [info_subtree] at this
  exact this.2.2.2

include ht

/-- The edit starts in front of the end of the node: whoever stands there has been looked at from
outside. -/
theorem Firm.offset_lt_stop : e.offset < (t.infoAt sub.id).stop := by
  by_contra hcon
  have hle := ht.le_stop
  have hx : e.offset = (t.infoAt sub.id).stop := by omega
  rcases h.seen_outer (h.sub_stop_le) with hread | ⟨j, hj, hread, -⟩ | hin
  · exact ht.document _ (by omega) (by omega) hread
  · exact ht.outer j hj _ (by omega) (by omega) hread
  · omega

/-- The offsets of all nodes outside of the place lie in front of the edit or behind it; those above
the place end behind it. -/
theorem Firm.spares {j : Nat} (hj : j ∈ Shape.outer ls) :
    e.Spares (t.infoAt j).invoked ∧ e.Spares (t.infoAt j).start ∧ e.Spares (t.infoAt j).stop := by
  have hlt := h.offset_lt_stop ht
  have h₁ := ht.invoked_le
  have h₂ := ht.le_stop
  obtain ⟨-, hlevels, houter⟩ := nested_outer h.nested
  have hnode := h.node_le (mem_ids_plug.2 (.inr hj))
  unfold Edit.Spares
  rcases houter j hj with ⟨l, hl, rfl⟩ | hin | hin
  · have := hlevels l hl
    omega
  · omega
  · omega

theorem Firm.sub_spares :
    e.Spares (t.infoAt sub.id).invoked ∧ e.Spares (t.infoAt sub.id).stop :=
  ⟨.inl ht.invoked_le, .inr ⟨h.offset_lt_stop ht, ht.le_stop⟩⟩

variable (hg : Grafted t ls sub replacement e g sub')

include hg

/-- All nodes outside of the place are carried along. -/
theorem Firm.carried {j : Nat} (hj : j ∈ Shape.outer ls) :
    (t.infoAt j).Carried e t.source.text (g.infoAt j) := by
  obtain ⟨h₁, h₂, h₃⟩ := h.spares ht hj
  refine ⟨?_, h₁, h₂, h₃, h.stop_le_size (mem_ids_plug.2 (.inr hj))⟩
  by_cases hlevel : ∃ l ∈ ls, l.id = j
  · obtain ⟨l, hl, rfl⟩ := hlevel
    have hlt := h.offset_lt_stop ht
    have hle := ht.le_stop
    have := (nested_outer h.nested).2.1 l hl
    exact (hg.level_displaced hl (by omega) (by rw [ht.fits.stop_eq]; omega)).1
  · push Not at hlevel
    exact (hg.beside_displaced h.arranged hj hlevel).1

/-- What the nodes outside of the place have examined is carried along. -/
theorem Firm.mem_reads {j : Nat} (hj : j ∈ Shape.outer ls) :
    (g.infoAt j).reads.Ordered
      ∧ ∀ y, (g.infoAt j).reads.mem y ↔ ∃ x, (t.infoAt j).reads.mem x ∧ e.carry x = y := by
  have hj' : j ∈ (plug ls sub).ids := mem_ids_plug.2 (.inr hj)
  refine (h.carried ht hg hj).mem_reads ht.fits (orderly_subtree.1 h.orderly j hj') ?_ (ht.outer j hj)
  exact fun x hx => h.examined_le x (examined_subtree.2 ⟨j, hj', hx⟩)

end Targeted

/-! ### Nodes inside each other -/

/-- Nodes that are carried along stay inside each other. -/
theorem nested_carried {u : Text} (h : (t.subtree sh).Nested) (hfits : e.Fits u)
    (hd : ∀ j ∈ sh.ids, (t.infoAt j).Carried e u (g.infoAt j)) : (g.subtree sh).Nested := by
  induction sh using Shape.induct with
  | step id children ih =>
    have hchild : ∀ c ∈ children, ∀ j ∈ c.ids, (t.infoAt j).Carried e u (g.infoAt j) :=
      fun c hc j hj => hd j (mem_ids_of_child hc hj)
    rw [subtree_node] at h ⊢
    refine h.carry hfits (hd id (id_mem_ids (.node id children))) ?_ ?_ ?_
    · simp only [List.forall_mem_map, info_subtree]
      exact fun c hc => ⟨(hchild c hc _ c.id_mem_ids).spares_invoked,
        (hchild c hc _ c.id_mem_ids).spares_stop⟩
    · rw [List.map_map, List.map_map]
      refine List.map_congr_left fun c hc => ?_
      have hc := hchild c hc _ c.id_mem_ids
      simp only [Function.comp_apply, info_subtree, hc.invoked, hc.stop]
    · cases h with
      | node _ _ _ _ h₅ =>
        simp only [List.forall_mem_map] at h₅ ⊢
        exact fun c hc => ih c hc (h₅ c hc) (hchild c hc)

/-- If all nodes outside of a place are carried along, and so is the node at the place, then nodes stay
inside each other. -/
theorem nested_plug {u : Text} (h : (t.subtree (plug ls sub)).Nested) (hfits : e.Fits u)
    (hd : ∀ j ∈ outer ls, (t.infoAt j).Carried e u (g.infoAt j)) (hsub : (g.subtree sub').Nested)
    (hspares : e.Spares (t.infoAt sub.id).invoked ∧ e.Spares (t.infoAt sub.id).stop)
    (hinvoked : (g.infoAt sub'.id).invoked = e.carry (t.infoAt sub.id).invoked)
    (hstop : (g.infoAt sub'.id).stop = e.carry (t.infoAt sub.id).stop) :
    (g.subtree (plug ls sub')).Nested := by
  induction ls generalizing sub sub' with
  | nil => exact hsub
  | cons l ls ih =>
    have hl := hd l.id (mem_outer_cons.2 (.inl rfl))
    have hbeside : ∀ c ∈ l.left ++ l.right, ∀ j ∈ c.ids, (t.infoAt j).Carried e u (g.infoAt j) :=
      fun c hc j hj => hd j (mem_outer_cons.2 (.inr (.inl ⟨c, hc, hj⟩)))
    change (t.subtree (plug ls (.node l.id (l.left ++ sub :: l.right)))).Nested at h
    have hnode := (nested_outer h).1
    refine @ih _ (.node l.id (l.left ++ sub' :: l.right)) h
      (fun j hj => hd j (mem_outer_cons.2 (.inr (.inr hj)))) ?_ ⟨hl.spares_invoked, hl.spares_stop⟩
      hl.invoked hl.stop
    rw [subtree_node] at hnode ⊢
    have hpair : ∀ c ∈ l.left ++ l.right, ((g.infoAt c.id).invoked, (g.infoAt c.id).stop)
        = (e.carry (t.infoAt c.id).invoked, e.carry (t.infoAt c.id).stop) := fun c hc => by
      rw [(hbeside c hc _ c.id_mem_ids).invoked, (hbeside c hc _ c.id_mem_ids).stop]
    refine hnode.carry hfits hl ?_ ?_ ?_
    · simp only [List.forall_mem_map, info_subtree]
      intro c hc
      rcases List.mem_append.1 hc with hc | hc
      · have hc := hbeside c (List.mem_append_left _ hc) _ c.id_mem_ids
        exact ⟨hc.spares_invoked, hc.spares_stop⟩
      · rcases List.mem_cons.1 hc with rfl | hc
        · exact hspares
        · have hc := hbeside c (List.mem_append_right _ hc) _ c.id_mem_ids
          exact ⟨hc.spares_invoked, hc.spares_stop⟩
    · simp only [List.map_append, List.map_cons, List.map_map, Function.comp_def, info_subtree,
        hinvoked, hstop]
      rw [List.map_congr_left fun c hc => hpair c (List.mem_append_left _ hc),
        List.map_congr_left fun c hc => hpair c (List.mem_append_right _ hc)]
    · cases hnode with
      | node _ _ _ _ h₅ =>
        simp only [List.forall_mem_map, List.mem_append, List.mem_cons] at h₅ ⊢
        rintro c (hc | rfl | hc)
        · exact nested_carried (h₅ c (.inl hc)) hfits (hbeside c (List.mem_append_left _ hc))
        · exact hsub
        · exact nested_carried (h₅ c (.inr (.inr hc))) hfits (hbeside c (List.mem_append_right _ hc))

/-! ### Patches -/

theorem id_plug_mem_outer (hne : ls ≠ []) (sub : Shape) : (plug ls sub).id ∈ outer ls := by
  rw [id_plug, List.getLast?_eq_some_getLast (by simpa using hne), Option.getD_some]
  obtain ⟨l, hl, heq⟩ := List.mem_map.1 (List.getLast_mem (l := ls.map Level.id) (by simpa using hne))
  rw [← heq]
  exact id_mem_outer hl

theorem mem_outer_of_beside {l : Level} (hl : l ∈ ls) {c : Shape} (hc : c ∈ l.left ++ l.right) {j : Nat}
    (hj : j ∈ c.ids) : j ∈ outer ls := by
  induction ls with
  | nil => cases hl
  | cons l₀ ls ih =>
    rcases List.mem_cons.1 hl with rfl | hl
    · exact mem_outer_cons.2 (.inr (.inl ⟨c, hc, hj⟩))
    · exact mem_outer_cons.2 (.inr (.inr (ih hl)))

/-- What stands beside the way down does not stand on it. -/
theorem Arranged.level_ne_beside (h : t.Arranged (plug ls sub)) {l : Level} (hl : l ∈ ls) {c : Shape}
    (hc : c ∈ l.left ++ l.right) {j : Nat} (hj : j ∈ c.ids) : ∀ l' ∈ ls, l'.id ≠ j := by
  have hnodup := (List.nodup_append.1 h.nodup).1
  rw [(ids_plug ls sub).nodup_iff, List.nodup_append] at hnodup
  have houter := hnodup.2.1
  clear hnodup h
  induction ls with
  | nil => cases hl
  | cons l₀ ls ih =>
    rw [outer, List.nodup_append, List.nodup_cons] at houter
    obtain ⟨⟨hnot, -⟩, hrest, hapart⟩ := houter
    intro l' hl'
    rcases List.mem_cons.1 hl with rfl | hin
    · have hmem : j ∈ (l.left ++ l.right).flatMap ids := List.mem_flatMap.2 ⟨c, hc, hj⟩
      rcases List.mem_cons.1 hl' with rfl | hl'
      · exact fun heq => hnot (heq ▸ hmem)
      · exact fun heq => hapart j (List.mem_cons_of_mem _ hmem) l'.id (id_mem_outer hl') heq.symm
    · rcases List.mem_cons.1 hl' with rfl | hl'
      · exact hapart l'.id List.mem_cons_self j (mem_outer_of_beside hin hc hj)
      · exact ih hin hrest l' hl'

section Patch

variable (h : t.Firm gr (plug ls sub)) (ht : t.Targeted ls sub e)
  (hg : Grafted t ls sub replacement e g sub')

include h ht hg

theorem Firm.mem_documentReads :
    g.documentReads.Ordered
      ∧ ∀ y, g.documentReads.mem y ↔ ∃ x, t.documentReads.mem x ∧ e.carry x = y := by
  rw [hg.documentReads]
  exact Footprint.shift_spec h.ordered ht.fits (h.ordered.span_le h.reads_le) ht.document

/-- Who has seen a place outside of the node that is replaced goes on seeing it. -/
theorem Firm.seen_carry {x : Nat} (hx : x ≤ (t.infoAt (plug ls sub).id).stop)
    (hout : x < (t.infoAt sub.id).invoked ∨ (t.infoAt sub.id).stop ≤ x) :
    g.documentReads.mem (e.carry x) ∨ (g.subtree (plug ls sub')).Sees (e.carry x) := by
  have hsize : ∀ {x}, x ≤ t.source.size → x < t.source.text.size + Text.maxSize := fun {x} hx => by
    have : x ≤ t.source.text.size := hx
    simp only [Text.maxSize]
    omega
  rcases h.seen_outer hx with hread | ⟨j, hj, hread, hinvoked, hstop⟩ | hin
  · exact .inl (((h.mem_documentReads ht hg).2 _).2 ⟨x, hread, rfl⟩)
  · right
    have hc := h.carried ht hg hj
    obtain ⟨hspares, hne⟩ := (ht.outer j hj).spares hread
    refine ⟨g.infoAt j, infoAt_mem_nodes (mem_ids_plug.2 (.inr hj)),
      ((h.mem_reads ht hg hj).2 _).2 ⟨x, hread, rfl⟩, ?_, ?_⟩
    · rw [hc.invoked]
      exact ht.fits.shift_mono hc.spares_invoked (hsize (Nat.le_trans hx (h.stop_le))) hinvoked
    · rw [hc.stop]
      exact ht.fits.shift_strict_mono hspares hne (hsize hc.stop_le) hstop
  · omega

/-- Everything up to the end of the root has been seen. -/
theorem Firm.seen_plug (hmade : Wellmade gr g.source.size replacement)
    (hinvoked : replacement.info.invoked = (t.infoAt sub.id).invoked)
    (hstop : replacement.info.stop = e.carry (t.infoAt sub.id).stop) {y : Nat}
    (hy : y ≤ (g.infoAt (plug ls sub').id).stop) :
    g.documentReads.mem y ∨ (g.subtree (plug ls sub')).Sees y := by
  have hlt := h.offset_lt_stop ht
  have hle := ht.le_stop
  have hsub := h.sub_stop_le
  have hrootle : (t.infoAt (plug ls sub).id).stop ≤ t.source.text.size := h.stop_le
  have hcarry : ∀ x, (t.infoAt sub.id).stop ≤ x → x ≤ t.source.text.size + 1 →
      e.carry x = x - e.oldLength + e.newLength :=
    fun x h₁ h₂ => ht.fits.shift_behind h₂ (by omega) (by omega)
  have hid : (plug ls sub').id = (plug ls sub).id := by rw [id_plug, id_plug, hg.id]
  rw [hid, (h.carried ht hg (id_plug_mem_outer ht.ne_nil sub)).stop, hcarry _ hsub (by omega)] at hy
  rw [hcarry _ (Nat.le_refl _) (by omega)] at hstop
  rcases Nat.lt_or_ge y (t.infoAt sub.id).invoked with hfront | hin
  · -- in front of the node nothing has moved
    have hstay : e.carry y = y := ht.fits.shift_before (.inl (by have := ht.invoked_le; omega))
    rw [← hstay]
    have := ht.invoked_le
    exact h.seen_carry ht hg (by omega) (.inl hfront)
  · rcases Nat.lt_or_ge y replacement.info.stop with hin' | hbehind
    · right
      obtain ⟨i, hi, hi'⟩ := hmade.sees y (by omega) hin'
      rw [← hg.grown.subtree_eq rfl, nodes_subtree] at hi
      obtain ⟨j, hj, rfl⟩ := List.mem_map.1 hi
      exact ⟨_, infoAt_mem_nodes (mem_ids_plug.2 (.inl hj)), hi'⟩
    · have hback : e.carry (y - e.newLength + e.oldLength) = y := by
        rw [hcarry _ (by omega) (by omega)]
        omega
      rw [← hback]
      exact h.seen_carry ht hg (by omega) (.inr (by omega))

/-- Extents beside the way down are carried along. -/
theorem Firm.guarded_beside {l : Level} (hl : l ∈ ls) {c : Shape}
    (hout : ∀ j ∈ c.ids, ∃ c' ∈ l.left ++ l.right, j ∈ c'.ids) (hguarded : t.Guarded c) :
    g.Guarded c := by
  induction c using Shape.induct with
  | step id children ih =>
    refine .node (fun y hy => ?_) fun c hc => ih c hc
      (fun j hj => hout j (mem_ids_of_child hc hj)) (hguarded.children c hc)
    have houter : ∀ j ∈ (Shape.node id children).ids, j ∈ Shape.outer ls := fun j hj =>
      (hout j hj).elim fun c' hc' => mem_outer_of_beside hl hc'.1 hc'.2
    obtain ⟨j, hj, hread⟩ := examined_subtree.1 hy
    obtain ⟨x, hold, rfl⟩ := ((h.mem_reads ht hg (houter j hj)).2 y).1 hread
    have hx : (t.subtree (.node id children)).Examined x := examined_subtree.2 ⟨j, hj, hold⟩
    have hsize : x ≤ t.source.text.size :=
      h.examined_le x (examined_subtree.2 ⟨j, mem_ids_plug.2 (.inr (houter j hj)), hold⟩)
    obtain ⟨hspares, hne⟩ := (ht.outer j (houter j hj)).spares hold
    obtain ⟨h₁, h₂, h₃⟩ := hguarded.guards x hx
    have hid := houter id (id_mem_ids (.node id children))
    have hcarried := h.carried ht hg hid
    obtain ⟨c', hc', hmem⟩ := hout id (id_mem_ids (.node id children))
    have hextent := (hg.beside_displaced h.arranged hid
      (h.arranged.level_ne_beside hl hc' hmem)).2
    rw [show (Shape.node id children).id = id from rfl] at h₁ h₂ h₃ ⊢
    rw [hextent, hcarried.invoked]
    refine ⟨congrArg e.carry h₁, ?_, ?_⟩
    · exact ht.fits.shift_mono hcarried.spares_invoked (by simp only [Text.maxSize]; omega) h₂
    · exact ht.fits.shift_strict_mono hspares hne (h.bounded id (mem_ids_plug.2 (.inr hid))) h₃

/-- The extent of a node above the place goes on starting where the node was asked for and covering
what was examined for it. -/
theorem Firm.guards_level (hmade : Wellmade gr g.source.size replacement)
    (hinvoked : replacement.info.invoked = (t.infoAt sub.id).invoked) {ls₁ ls₂ : List Level} {l : Level}
    (hls : ls = ls₁ ++ l :: ls₂) (hguards : t.Guards (plug (ls₁ ++ [l]) sub)) :
    g.Guards (plug (ls₁ ++ [l]) sub') := by
  have hl : l ∈ ls := by simp [hls]
  have hlow := ht.invoked_le
  have hlt := h.offset_lt_stop ht
  have hle := ht.le_stop
  have hlevel := (nested_outer h.nested).2.1 l hl
  have hnode := h.node_le (mem_ids_plug.2 (.inr (id_mem_outer hl)))
  have hid : ∀ s, (plug (ls₁ ++ [l]) s).id = l.id := fun s => by rw [plug_append]; rfl
  have houter : ∀ j ∈ Shape.outer (ls₁ ++ [l]), j ∈ Shape.outer ls := fun j hj => by
    rw [hls, ← List.singleton_append, ← List.append_assoc, outer_append]
    exact List.mem_append_left _ hj
  -- before the edit: the extent starts at the node and reaches behind the beginning of the edit
  obtain ⟨z, hz, hinner⟩ := ht.inner
  obtain ⟨j, hj, hread⟩ := examined_subtree.1 hinner
  obtain ⟨hstart, -, hreach⟩ := hguards z (examined_subtree.2 ⟨j, mem_ids_plug.2 (.inl hj), hread⟩)
  rw [hid] at hstart hreach
  have hbounded := h.bounded l.id (mem_ids_plug.2 (.inr (id_mem_outer hl)))
  have hstay : e.carry (t.infoAt l.id).invoked = (t.infoAt l.id).invoked :=
    ht.fits.shift_before (.inl (by omega))
  have hfar : e.offset ≤ e.carry (t.extentAt l.id).stop := by
    have hmono := ht.fits.shift_mono (.inl (Nat.le_refl e.offset)) hbounded (by omega)
    rwa [ht.fits.shift_before (.inl (Nat.le_refl e.offset))] at hmono
  -- after it: what was examined anew, and what was examined outside of the place
  intro y hy
  have hnew : replacement.Examined y ∨ (t.infoAt l.id).invoked ≤ y
      ∧ y < e.carry (t.extentAt l.id).stop := by
    obtain ⟨j, hj, hread⟩ := examined_subtree.1 hy
    rcases mem_ids_plug.1 hj with hj | hj
    · left
      rw [← hg.grown.subtree_eq rfl]
      exact examined_subtree.2 ⟨j, hj, hread⟩
    · right
      obtain ⟨x, hold, rfl⟩ := ((h.mem_reads ht hg (houter j hj)).2 y).1 hread
      have hsize : x ≤ t.source.text.size :=
        h.examined_le x (examined_subtree.2 ⟨j, mem_ids_plug.2 (.inr (houter j hj)), hold⟩)
      obtain ⟨hspares, hne⟩ := (ht.outer j (houter j hj)).spares hold
      obtain ⟨-, h₂, h₃⟩ := hguards x (examined_subtree.2 ⟨j, mem_ids_plug.2 (.inr hj), hold⟩)
      rw [hid] at h₂ h₃
      rw [← hstay]
      exact ⟨ht.fits.shift_mono (.inl (by omega)) (by simp only [Text.maxSize]; omega) h₂,
        ht.fits.shift_strict_mono hspares hne hbounded h₃⟩
  obtain ⟨hcarried, hextent⟩ := hg.level_displaced hl (by omega) (by rw [ht.fits.stop_eq]; omega)
  have hfits := replacement.fits_extent
  rw [hid, hextent, hcarried.invoked, hstart, hstay]
  have hholds : (Extent.cover ⟨(t.infoAt l.id).invoked, e.carry (t.extentAt l.id).stop⟩
      replacement.extent).Holds y :=
    Extent.holds_cover (hnew.symm.imp id (hfits.holds y))
  have hbegin : (Extent.cover ⟨(t.infoAt l.id).invoked, e.carry (t.extentAt l.id).stop⟩
      replacement.extent).start = (t.infoAt l.id).invoked := by
    have hsub : replacement.extent.start < replacement.extent.stop →
        replacement.extent.start = (t.infoAt sub.id).invoked := fun hne => by
      rw [← hinvoked]
      exact hfits.start_eq hmade.watchful.begins (hfits.start hne)
    obtain ⟨-, heq⟩ | ⟨h₁, h₂, heq⟩ | ⟨h₁, h₂, heq⟩ := Extent.cover_cases
      ⟨(t.infoAt l.id).invoked, e.carry (t.extentAt l.id).stop⟩ replacement.extent
    · rw [heq]
    · rw [heq, hsub h₂]
      dsimp only at h₁
      omega
    · rw [heq, hsub h₂]
      dsimp only
      omega
  exact ⟨hbegin, hbegin ▸ hholds.1, hholds.2⟩

/-- The extents stay right below every node above the place. -/
theorem Firm.guarded_children (hmade : Wellmade gr g.source.size replacement)
    (hinvoked : replacement.info.invoked = (t.infoAt sub.id).invoked) {ls₁ ls₂ : List Level} {l : Level}
    (hls : ls = ls₁ ++ l :: ls₂) (hguarded : ∀ c ∈ l.left ++ plug ls₁ sub :: l.right, t.Guarded c) :
    ∀ c ∈ l.left ++ plug ls₁ sub' :: l.right, g.Guarded c := by
  have hl : l ∈ ls := by simp [hls]
  have hbeside : ∀ c ∈ l.left ++ l.right, g.Guarded c := fun c hc =>
    h.guarded_beside ht hg hl (fun j hj => ⟨c, hc, hj⟩) (hguarded c (by
      simp only [List.mem_append, List.mem_cons] at hc ⊢
      tauto))
  have hpath : g.Guarded (plug ls₁ sub') := by
    have hold := hguarded (plug ls₁ sub) (by simp)
    clear hguarded hbeside
    induction ls₁ using List.reverseRecOn generalizing l ls₂ with
    | nil => exact hg.grown.guarded rfl hmade.watchful
    | append_singleton ls₁ l₁ ih =>
      have hls₁ : ls = ls₁ ++ l₁ :: (l :: ls₂) := by rw [hls]; simp
      have hl₁ : l₁ ∈ ls := by simp [hls]
      have hguards := h.guards_level ht hg hmade hinvoked hls₁ hold.guards
      rw [plug_append] at hold hguards ⊢
      have hchildren := hold.children
      refine .node hguards fun c hc => ?_
      rcases List.mem_append.1 hc with hc | hc
      · exact h.guarded_beside ht hg hl₁ (fun j hj => ⟨c, List.mem_append_left _ hc, hj⟩)
          (hchildren c (List.mem_append_left _ hc))
      · rcases List.mem_cons.1 hc with rfl | hc
        · exact ih hls₁ hl₁ (hchildren _ (by simp [plug, Shape.children]))
        · exact h.guarded_beside ht hg hl₁ (fun j hj => ⟨c, List.mem_append_right _ hc, hj⟩)
            (hchildren c (List.mem_append_right _ (List.mem_cons_of_mem _ hc)))
  intro c hc
  rcases List.mem_append.1 hc with hc | hc
  · exact hbeside c (List.mem_append_left _ hc)
  · rcases List.mem_cons.1 hc with rfl | hc
    · exact hpath
    · exact hbeside c (List.mem_append_right _ hc)

/-- No extent gets far behind the text. -/
theorem Firm.bounded_plug (hmade : Wellmade gr g.source.size replacement) :
    ∀ j ∈ (plug ls sub').ids, (g.extentAt j).stop < g.source.size + Text.maxSize := by
  have hspans : ∀ i ∈ replacement.nodes, ∀ s ∈ i.reads.spans.toList,
      s.2 < g.source.size + Text.maxSize := fun i hi s hs => by
    have := (hmade.orderly i hi).span_le (fun x hx => hmade.examined_le x ⟨i, hi, hx⟩) s hs
    simp only [Text.maxSize]
    omega
  have hpos : 0 < g.source.size + Text.maxSize := by simp only [Text.maxSize]; omega
  have hcarry : ∀ j ∈ Shape.outer ls, e.carry (t.extentAt j).stop < g.source.size + Text.maxSize := by
    intro j hj
    rw [hg.source]
    exact ht.fits.shift_lt (h.bounded j (mem_ids_plug.2 (.inr hj)))
  intro j hj
  rcases mem_ids_plug.1 hj with hj | hj
  · exact hg.grown.extentAt_stop_lt rfl hpos hspans j hj
  · by_cases hlevel : ∃ l ∈ ls, l.id = j
    · obtain ⟨l, hl, rfl⟩ := hlevel
      have hlt := h.offset_lt_stop ht
      have hle := ht.le_stop
      have := (nested_outer h.nested).2.1 l hl
      rw [(hg.level_displaced hl (by omega) (by rw [ht.fits.stop_eq]; omega)).2]
      exact Extent.cover_stop_lt (hcarry _ hj) (Subtree.extent_stop_lt hpos hspans)
    · push Not at hlevel
      rw [(hg.beside_displaced h.arranged hj hlevel).2]
      exact hcarry j hj

/-- A patch keeps a tree firm. -/
theorem Firm.grafted (hmade : Wellmade gr g.source.size replacement)
    (hinvoked : replacement.info.invoked = (t.infoAt sub.id).invoked)
    (hstop : replacement.info.stop = e.carry (t.infoAt sub.id).stop) :
    g.Firm gr (plug ls sub') := by
  have hsubtree : g.subtree sub' = replacement := hg.grown.subtree_eq rfl
  have hreads := h.mem_documentReads ht hg
  have hsub : (g.infoAt sub'.id).invoked = e.carry (t.infoAt sub.id).invoked
      ∧ (g.infoAt sub'.id).stop = e.carry (t.infoAt sub.id).stop := by
    rw [← info_subtree, hsubtree, hinvoked, hstop]
    exact ⟨(ht.fits.shift_before (.inl ht.invoked_le)).symm, rfl⟩
  have hid : (plug ls sub').id = (plug ls sub).id := by rw [id_plug, id_plug, hg.id]
  have hroot := id_plug_mem_outer ht.ne_nil sub
  have hsize : g.source.size = (e.applyTo t.source.text).size := by rw [hg.source]; rfl
  -- a node stands in the new subtree or outside of the place
  have hcases : ∀ j ∈ (plug ls sub').ids, g.infoAt j ∈ replacement.nodes ∨ j ∈ Shape.outer ls :=
    fun j hj => (mem_ids_plug.1 hj).imp_left fun hj => hsubtree ▸ infoAt_mem_nodes hj
  refine ⟨hg.arranged, ?_, ?_, ?_, ?_, ?_, hreads.1, ?_, ?_, ?_, ?_⟩
  · refine nested_plug h.nested ht.fits (fun j hj => h.carried ht hg hj) ?_ (h.sub_spares ht) hsub.1 hsub.2
    rw [hsubtree]
    exact hmade.nested
  · have hcarried := h.carried ht hg hroot
    rw [hid, hcarried.stop, hsize]
    exact ht.fits.shift_le_size hcarried.spares_stop hcarried.stop_le
  · refine orderly_subtree.2 fun j hj => ?_
    rcases hcases j hj with hj | hj
    · exact hmade.orderly _ hj
    · exact (h.mem_reads ht hg hj).1
  · intro y hy
    obtain ⟨j, hj, hread⟩ := examined_subtree.1 hy
    rcases hcases j hj with hj | hj
    · exact hmade.examined_le y ⟨_, hj, hread⟩
    · obtain ⟨x, hold, rfl⟩ := ((h.mem_reads ht hg hj).2 y).1 hread
      rw [hsize]
      exact ht.fits.shift_le_size ((ht.outer j hj).spares hold).1
        (h.examined_le x (examined_subtree.2 ⟨j, mem_ids_plug.2 (.inr hj), hold⟩))
  · intro i hi
    rw [nodes_subtree] at hi
    obtain ⟨j, hj, rfl⟩ := List.mem_map.1 hi
    rcases hcases j hj with hj | hj
    · exact hmade.licensed _ hj
    · unfold NodeInfo.Licensed
      rw [(h.carried ht hg hj).rule]
      exact h.licensed _ (infoAt_mem_nodes (mem_ids_plug.2 (.inr hj)))
  · intro y hy
    obtain ⟨x, hold, rfl⟩ := (hreads.2 y).1 hy
    rw [hsize]
    exact ht.fits.shift_le_size (ht.document.spares hold).1 (h.reads_le x hold)
  · exact fun y hy => h.seen_plug ht hg hmade hinvoked hstop hy
  · obtain ⟨ls₀, l, rfl⟩ : ∃ ls₀ l, ls = ls₀ ++ [l] :=
      ⟨_, _, (List.dropLast_append_getLast ht.ne_nil).symm⟩
    have hguarded := h.guarded
    rw [plug_append] at hguarded ⊢
    exact h.guarded_children ht hg hmade hinvoked rfl hguarded
  · exact h.bounded_plug ht hg hmade

end Patch

/-- **A patch keeps a tree firm.** -/
theorem Firm.graft (h : t.Firm gr (plug ls sub)) (ht : t.Targeted ls sub e)
    (hmade : Wellmade gr (t.source.edit e).size replacement)
    (hinvoked : replacement.info.invoked = (t.infoAt sub.id).invoked)
    (hstop : replacement.info.stop = e.carry (t.infoAt sub.id).stop) :
    ∃ sh, (t.graft sub.id replacement e).Firm gr sh := by
  obtain ⟨sub', hg⟩ := grafted_spec h.arranged e replacement
  have hfirm := h.grafted ht hg (hg.source ▸ hmade) hinvoked hstop
  refine ⟨plug ls sub', ?_⟩
  rw [graft_eq]
  split
  · exact hfirm.compact
  · exact hfirm

/-- A patch puts the new subtree in the place of the old one and carries all other nodes along. -/
theorem Firm.graft_spec (h : t.Firm gr (plug ls sub)) (ht : t.Targeted ls sub e)
    (replacement : Subtree) :
    ∃ sub', sub'.id = sub.id ∧ (t.graft sub.id replacement e).Arranged (plug ls sub')
      ∧ (t.graft sub.id replacement e).subtree sub' = replacement
      ∧ ∀ j ∈ outer ls,
        (t.infoAt j).Carried e t.source.text ((t.graft sub.id replacement e).infoAt j) := by
  obtain ⟨sub', hg⟩ := grafted_spec h.arranged e replacement
  refine ⟨sub', hg.id, ?_⟩
  have hsubtree : (t.grafted sub.id replacement e).subtree sub' = replacement := hg.grown.subtree_eq rfl
  have hcarried : ∀ j ∈ outer ls, _ := fun j hj => h.carried ht hg hj
  rw [graft_eq]
  split
  · have hinfo : ∀ j, (t.grafted sub.id replacement e).compact.infoAt j
        = (t.grafted sub.id replacement e).infoAt j := fun j => by
      unfold infoAt
      rw [node?_compact]
    refine ⟨hg.arranged.compact, (subtree_congr fun j _ => hinfo j).trans hsubtree, fun j hj => ?_⟩
    rw [hinfo]
    exact hcarried j hj
  · exact ⟨hg.arranged, hsubtree, hcarried⟩

end Tree

end Packrat
