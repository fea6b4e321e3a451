import Packrat.Proofs.Document.Spans

/-!
The search for readers is exact.

The search passes over a subtree whose extent misses the stretch, so the extents must cover what was
examined.  Below the root they do in every firm tree (`Tree.Firm.guarded`); the extent of the root itself
is followed here (`Tree.Covered`).  It covers a fresh tree.  A patch moves its two ends with the edit and
adds what was examined anew: the end cannot fall back behind a reader, since the edited stretch was
examined by nobody outside of the patch; and the beginning does not move at all, since whoever has seen
the edited place is a node (`Tree.Firm.root_start_le`).

So in every state of a document the search finds the readers of a stretch, all of them, in preorder, and
the ancestors of the readers lead to the lowest node that holds them all
(`Document.performAll_readers`).
-/

namespace Packrat

open Parse Shape

namespace Tree

variable {t g : Tree} {gr : Grammar} {sh sub sub' : Shape} {ls : List Level} {e : Edit}
  {replacement : Subtree}

/-- The extent of the root covers whatever the nodes of the tree have examined. -/
def Covered (t : Tree) : Prop :=
  ∀ id ∈ t.preorder, ∀ x, (t.infoAt id).reads.mem x → (t.extentAt t.root).Holds x

theorem Arranged.covered_iff (h : t.Arranged sh) :
    t.Covered ↔ ∀ x, (t.subtree sh).Examined x → (t.extentAt sh.id).Holds x := by
  unfold Covered
  rw [h.preorder_eq, h.root]
  simp only [examined_subtree, forall_exists_index, and_imp]
  exact ⟨fun hc x id hid => hc id hid x, fun hc id hid x => hc x id hid⟩

/-- What is seen of a tree decides. -/
theorem Covered.congr (h : t.Covered) (hnode : ∀ j, g.node? j = t.node? j) (hroot : g.root = t.root)
    (hpreorder : g.preorder = t.preorder) : g.Covered := by
  intro id hid x hx
  unfold infoAt at hx
  unfold extentAt
  rw [hroot, hnode]
  rw [hnode] at hx
  exact h id (hpreorder ▸ hid) x hx

theorem Covered.sameView (h : t.Covered) (hview : SameView t g) (harranged : t.Arranged sh) :
    g.Covered := by
  refine h.congr hview.node?_eq hview.root ?_
  rw [harranged.preorder_eq, (hview.arranged harranged).preorder_eq]

/-- The root of a fresh tree covers everything that was examined. -/
theorem covered_ofSubtree (source : Source) (reads : Footprint) (root : Subtree) :
    (ofSubtree source reads root).Covered := by
  obtain ⟨sh, -, harranged, hgrown⟩ := ofSubtree_spec source reads root
  have hversion := (version_ofSubtree source reads root).symm
  rw [harranged.covered_iff, hgrown.subtree_eq hversion, hgrown.extentAt_eq hversion]
  exact root.fits_extent.holds

/-! ### Patches -/

section Patch

variable (h : t.Firm gr (plug ls sub)) (ht : t.Targeted ls sub e)

include h ht

/-- The extent of the root starts in front of an edit that can be patched: a node has examined the
edited place. -/
theorem Firm.root_start_le (hcovered : t.Covered) :
    (t.extentAt (plug ls sub).id).start ≤ e.offset := by
  have hlt := h.offset_lt_stop ht
  have hle := h.sub_stop_le
  rcases h.seen e.offset (by omega) with hread | ⟨i, hi, hread, -⟩
  · exact absurd hread (ht.document _ (Nat.le_refl _) (by omega))
  · exact (h.arranged.covered_iff.1 hcovered e.offset ⟨i, hi, hread⟩).1

/-- A patch keeps the root covering everything that was examined. -/
theorem Firm.covered_grafted (hg : Grafted t ls sub replacement e g sub') (hcovered : t.Covered) :
    g.Covered := by
  have hstart := h.root_start_le ht hcovered
  rw [h.arranged.covered_iff] at hcovered
  have hid : (plug ls sub').id = (plug ls sub).id := by rw [id_plug, id_plug, hg.id]
  have hroot := id_plug_mem_outer ht.ne_nil sub
  have hbounded := h.bounded _ (mem_ids_plug.2 (.inr hroot))
  -- the root is the last one above the place, and its extent is brought up to date at once
  obtain ⟨l, hl, hlid⟩ : ∃ l ∈ ls, l.id = (plug ls sub).id := by
    obtain ⟨ls₀, l, rfl⟩ : ∃ ls₀ l, ls = ls₀ ++ [l] :=
      ⟨_, _, (List.dropLast_append_getLast ht.ne_nil).symm⟩
    exact ⟨l, by simp, by rw [plug_append]; rfl⟩
  have hextent : g.extentAt (plug ls sub').id = Extent.cover
      ⟨e.carry (t.extentAt (plug ls sub).id).start, e.carry (t.extentAt (plug ls sub).id).stop⟩
      replacement.extent := by
    have hlt := h.offset_lt_stop ht
    have hle := ht.le_stop
    have hlevel := (nested_outer h.nested).2.1 l hl
    rw [hid, ← hlid]
    exact (hg.level_displaced hl (by omega) (by rw [ht.fits.stop_eq]; omega)).2
  rw [hg.arranged.covered_iff, hextent]
  intro y hy
  refine Extent.holds_cover ?_
  obtain ⟨j, hj, hread⟩ := examined_subtree.1 hy
  rcases mem_ids_plug.1 hj with hj | hj
  · right
    refine replacement.fits_extent.holds y ?_
    rw [← hg.grown.subtree_eq rfl]
    exact examined_subtree.2 ⟨j, hj, hread⟩
  · left
    obtain ⟨x, hold, rfl⟩ := ((h.mem_reads ht hg hj).2 y).1 hread
    have hexamined : (t.subtree (plug ls sub)).Examined x :=
      examined_subtree.2 ⟨j, mem_ids_plug.2 (.inr hj), hold⟩
    obtain ⟨hspares, hne⟩ := (ht.outer j hj).spares hold
    obtain ⟨h₁, h₂⟩ := hcovered x hexamined
    have hsize : x ≤ t.source.text.size := h.examined_le x hexamined
    exact ⟨ht.fits.shift_mono (.inl hstart) (by simp only [Text.maxSize]; omega) h₁,
      ht.fits.shift_strict_mono hspares hne hbounded h₂⟩

theorem Firm.covered_graft (hcovered : t.Covered) (replacement : Subtree) :
    (t.graft sub.id replacement e).Covered := by
  obtain ⟨sub', hg⟩ := grafted_spec h.arranged e replacement
  have hgrafted := h.covered_grafted ht hg hcovered
  rw [graft_eq]
  split
  · refine hgrafted.congr (node?_compact _) rfl ?_
    rw [hg.arranged.preorder_eq, hg.arranged.compact.preorder_eq]
  · exact hgrafted

end Patch

/-! ### The search -/

/-- The lowest node whose subtree holds all of the given nodes. -/
structure Lowest (t : Tree) (ids : List Nat) (c : Nat) : Prop where
  mem : c ∈ t.preorder
  holds : ∀ j ∈ ids, j ∈ t.preorderFrom t.slots.size c
  least : ∀ c' ∈ t.preorder, (∀ j ∈ ids, j ∈ t.preorderFrom t.slots.size c') →
    c ∈ t.preorderFrom t.slots.size c'

/-- Going from one node to the next by common ancestors leads to the lowest node that holds them all. -/
theorem Arranged.foldlM_commonAncestor?_lowest (h : t.Arranged sh) {a : Nat} {ids : List Nat}
    (hids : ∀ j ∈ a :: ids, j ∈ t.preorder) :
    ∃ c, ids.foldlM t.commonAncestor? a = some c ∧ t.Lowest (a :: ids) c := by
  simp only [h.preorder_eq] at hids
  obtain ⟨c, hc, hfold, habove⟩ := h.foldlM_commonAncestor?_spec
    (fun j hj => hids j (List.mem_cons_of_mem _ hj)) (hids a List.mem_cons_self)
  refine ⟨c, hfold, by rwa [h.preorder_eq], fun j hj => ?_, fun c' hc' hholds => ?_⟩
  · rw [h.mem_preorderFrom hc (hids j hj)]
    obtain ⟨hfirst, hrest⟩ := (habove c).1 (h.above_self hc)
    exact List.forall_mem_cons.2 ⟨hfirst, hrest⟩ j hj
  · rw [h.preorder_eq] at hc'
    rw [h.mem_preorderFrom hc' hc, habove]
    exact List.forall_mem_cons.1 fun j hj => (h.mem_preorderFrom hc' (hids j hj)).1 (hholds j hj)

/-- In a firm tree whose root covers everything the search finds all readers. -/
theorem Firm.readers_eq (h : t.Firm gr sh) (hcovered : t.Covered) (a b : Nat) :
    (t.readers a b).1 = t.preorder.filter fun id => (t.infoAt id).reads.intersects a b := by
  rw [h.arranged.preorder_eq]
  refine h.arranged.readers_eq h.guarded h.orderly (not_reads_of_misses ?_ h.orderly)
  exact h.arranged.covered_iff.1 hcovered

end Tree

namespace Document

variable {d d' : Document} {op : Op}

/-- The root of the tree, if there is one, covers everything that was examined for it. -/
def Covered (d : Document) : Prop := ∀ tree, d.tree = some tree → tree.Covered

theorem covered_of_parse {p : Parser} {source : Source} {tree : Tree} {log : Log}
    (h : (p.parse source log).1 = .ok tree) : tree.Covered := by
  obtain ⟨root, htree, -⟩ := p.parse_accepts h
  rw [htree]
  exact Tree.covered_ofSubtree source _ root

/-- Every step keeps the root covering everything. -/
theorem Step.covered (h : Step d op d') (hstep : d.InStep) (hfirm : d.Firm) (hd : d.Covered)
    (hsize : d.text.size < Text.maxSize) (hsize' : d'.text.size < Text.maxSize) : d'.Covered := by
  cases h with
  | parsed htree =>
    rintro _ ⟨⟩
    exact covered_of_parse htree
  | reparsed htree =>
    rintro _ ⟨⟩
    exact covered_of_parse htree
  | refused _ =>
    intro tree htree
    cases htree
  | @kept e err tree log stats _ htree =>
    intro tree' htree'
    change tree = some tree' at htree'
    rcases htree with rfl | ⟨t, ht, -, -, rfl⟩
    · exact hd tree' htree'
    · cases htree'
      obtain ⟨-, sh, hfirm⟩ := hfirm t ht
      exact (hd t ht).sameView (candidates_sameView t _) hfirm.arranged
  | @patched e tree id s replacement log stats htree hpatchable hstale hid hnode hencloses hregion =>
    rintro _ ⟨⟩
    obtain ⟨-, sh, hfirm⟩ := hfirm tree htree
    have hsource := hstep.tree tree htree hstale
    have hfits : (e.clamp d.text.size).Fits d.text := Edit.clamp_fits hsize hsize'
    have hview := candidates_sameView tree (e.clamp d.text.size)
    rw [hview.node?_eq] at hnode
    obtain ⟨ls, sub, rfl, rfl, ht, -⟩ :=
      targeted_of_candidates hfirm (by rw [hsource]; exact hfits) hid hnode hencloses
    exact (hfirm.sameView hview).covered_graft (ht.sameView hview)
      ((hd tree htree).sameView hview hfirm.arranged) replacement
  | invalidated => exact hd
  | emptied =>
    intro tree htree
    cases htree
  | @looked id =>
    intro tree htree
    obtain ⟨tree, hsome, rfl⟩ := Option.map_eq_some_iff.1 htree
    obtain ⟨-, sh, hfirm⟩ := hfirm tree hsome
    exact (hd tree hsome).sameView (tree.catchUp_sameView id) hfirm.arranged

theorem covered_performAll (p : Parser) {ops : List Op} (hshort : Short #[] ops) (log : Log) :
    ((ofParser p).performAll ops log).1.Covered :=
  (performAll_induct (P := fun d => d.InStep ∧ d.Firm ∧ d.Covered)
    (fun hd hsize hsize' h => ⟨h.inStep hd.1 hsize hsize', h.firm hd.1 hd.2.1 hsize hsize',
      h.covered hd.1 hd.2.1 hd.2.2 hsize hsize'⟩)
    ⟨inStep_ofParser p, fun _ h => (nomatch h), fun _ h => (nomatch h)⟩
    (show (0 : Nat) < Text.maxSize by decide) hshort log).2.2

/-- **The search for readers is exact.** After any run of operations, none of whose texts is too long
for its offsets, the search finds in preorder those nodes of the tree that have examined an offset in the
stretch themselves, and no others; and if there are any, their common ancestors, taken one after the
other, lead to the lowest node whose subtree holds all of them. -/
theorem performAll_readers (p : Parser) {ops : List Op} (hshort : Short #[] ops) (log : Log)
    {tree : Tree} (htree : ((ofParser p).performAll ops log).1.tree = some tree) (a b : Nat) :
    (tree.readers a b).1 = tree.preorder.filter (fun id => (tree.infoAt id).reads.intersects a b)
      ∧ (∀ id ∈ tree.preorder, (tree.infoAt id).reads.intersects a b = true
          ↔ ∃ x, a ≤ x ∧ x < b ∧ (tree.infoAt id).reads.mem x)
      ∧ ∀ id ids, (tree.readers a b).1 = id :: ids →
          ∃ c, ids.foldlM tree.commonAncestor? id = some c ∧ tree.Lowest (id :: ids) c := by
  obtain ⟨-, sh, hfirm⟩ := firm_performAll p hshort log tree htree
  have hreaders := hfirm.readers_eq (covered_performAll p hshort log tree htree) a b
  refine ⟨hreaders, fun id hid => ?_, fun id ids heq => ?_⟩
  · rw [hfirm.arranged.preorder_eq] at hid
    exact Footprint.intersects_iff (Tree.orderly_subtree.1 hfirm.orderly id hid)
  · refine hfirm.arranged.foldlM_commonAncestor?_lowest fun j hj => ?_
    rw [← heq, hreaders] at hj
    exact (List.mem_filter.1 hj).1

theorem performAll_pairRun_search :
    ((ofParser pairParser).performAll pairRun #[]).1.tree.map (fun t => (t.readers 0 3).1)
      = some [0, 1, 2] := by
  cbv

/-- All nodes of the patched pair have looked at its text, and the lowest node that holds them is found. -/
theorem performAll_pairRun_readers :
    Short #[] pairRun ∧ ∃ tree, ((ofParser pairParser).performAll pairRun #[]).1.tree = some tree
      ∧ (tree.readers 0 3).1 = [0, 1, 2]
      ∧ ∃ c, [1, 2].foldlM tree.commonAncestor? 0 = some c ∧ tree.Lowest [0, 1, 2] c := by
  obtain ⟨tree, htree, hreaders⟩ := Option.map_eq_some_iff.1 performAll_pairRun_search
  obtain ⟨-, -, hlowest⟩ := performAll_readers pairParser short_pairRun #[] htree 0 3
  exact ⟨short_pairRun, tree, htree, hreaders, hlowest 0 [1, 2] hreaders⟩

end Document

end Packrat
