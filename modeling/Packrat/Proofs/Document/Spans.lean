import Packrat.Proofs.Document.Texts
import Packrat.Proofs.Parse.Account
import Packrat.Proofs.Tree.Firm

/-!
The nodes of the tree of a document.

Whatever has been done to a document, its tree is firm (`Document.Firm`): a fresh parse makes a firm
tree, a patch keeps it firm, and a tree that has become stale is left as it is.  So the nodes lie inside
each other and inside the text that the tree belongs to, and follow each other there
(`Document.performAll_spans`).
-/

namespace Packrat

open Parse

/-- How the node with a number, seen as `s`, lies in the text and among the nodes around it. -/
structure Tree.Spans (t : Tree) (id : Nat) (s : Slot) : Prop where
  invoked_le : s.info.invoked ≤ s.info.start
  start_le : s.info.start ≤ s.info.stop
  stop_le : s.info.stop ≤ t.source.size
  child : ∀ c ∈ s.children, ∃ s', t.node? c = some s' ∧ s'.parent = some id
    ∧ s.info.start ≤ s'.info.invoked ∧ s'.info.stop ≤ s.info.stop
  apart : s.children.Pairwise fun c c' => ∀ s₁ s₂, t.node? c = some s₁ → t.node? c' = some s₂ →
    s₁.info.stop ≤ s₂.info.invoked
  text : t.text? id = some (t.source.slice s.info.start s.info.stop)

/-- The nodes of a firm tree lie inside each other and inside the text. -/
theorem Tree.Firm.spans {gr : Grammar} {t : Tree} {sh : Shape} (h : t.Firm gr sh)
    (hsize : t.source.size < Text.maxSize) {id : Nat} (hid : id ∈ t.preorder) :
    ∃ s, t.node? id = some s ∧ t.Spans id s := by
  rw [h.arranged.preorder_eq] at hid
  obtain ⟨ls, sub, rfl, rfl⟩ := Shape.exists_plug hid
  have hlinked := (Tree.linked_plug.1 h.arranged.linked).1
  obtain ⟨s, hs, -, hchildren, -⟩ := hlinked.node?_eq
  have hinfo := Tree.infoAt_of_node? hs
  obtain ⟨hinvoked, hstart⟩ := h.node_le hid
  have hstop := h.stop_le_size hid
  have hnested := (Tree.nested_outer h.nested).1
  rw [hinfo] at hinvoked hstart hstop
  refine ⟨s, hs, hinvoked, hstart, hstop, ?_, ?_, Tree.text?_eq hs hsize hstart hstop⟩
  all_goals
    rw [hchildren]
    cases sub with
    | node id children => ?_
  · rw [Tree.subtree_node] at hnested
    cases hnested with
    | node _ _ h₃ _ _ =>
      simp only [List.forall_mem_map, Tree.info_subtree] at h₃ ⊢
      intro c hc
      obtain ⟨s', hs', hparent, -⟩ := ((Tree.linked_node.1 hlinked).2 c hc).node?_eq
      have hc := h₃ c hc
      rw [Tree.infoAt_of_node? hs', show t.infoAt id = s.info from hinfo] at hc
      exact ⟨s', hs', hparent, hc⟩
  · rw [Tree.subtree_node] at hnested
    cases hnested with
    | node _ _ _ h₄ _ =>
      rw [List.pairwise_map] at h₄ ⊢
      refine h₄.imp fun {c c'} hle s₁ s₂ hs₁ hs₂ => ?_
      rwa [Tree.info_subtree, Tree.info_subtree, Tree.infoAt_of_node? hs₁,
        Tree.infoAt_of_node? hs₂] at hle

namespace Document

variable {d d' : Document} {op : Op}

/-- The tree of the document, if there is one, is firm, and its text is short enough. -/
def Firm (d : Document) : Prop :=
  ∀ tree, d.tree = some tree → tree.source.size < Text.maxSize
    ∧ ∃ sh, tree.Firm d.parser.grammar sh

theorem firm_of_parse {p : Parser} {text : Text} {tree : Tree} {log : Log}
    (hsize : text.size < Text.maxSize) (h : (p.parse (.ofText text) log).1 = .ok tree) :
    tree.source.size < Text.maxSize ∧ ∃ sh, tree.Firm p.grammar sh := by
  rw [p.source_of_parse h]
  obtain ⟨root, htree, haccepts⟩ := p.parse_accepts h
  refine ⟨hsize, ?_⟩
  rw [htree]
  exact Tree.firm_of_accepts haccepts

/-- A stretch that a footprint does not meet is one that it avoids. -/
theorem avoids_of_intersects {f : Footprint} {e : Edit} {u : Text} (hf : f.Ordered) (hfits : e.Fits u)
    (h : f.intersects e.offset (touched e) = false) : f.Avoids e := by
  intro x h₁ h₂ hx
  rw [← hfits.stop_eq] at h₂
  have := (Footprint.intersects_iff hf).2 ⟨x, h₁, h₂, hx⟩
  rw [show f.intersects e.offset (max e.stop (e.offset + 1)) = false from h] at this
  cases this

/-- A node encloses an edit if a rule has made it, from the edit's offset or before, up to its end or
behind. -/
theorem encloses_iff {s : Slot} {e : Edit} : encloses s e = true
    ↔ (∃ rule, s.info.rule = some rule) ∧ s.info.invoked ≤ e.offset ∧ e.stop ≤ s.info.stop := by
  unfold encloses
  simp only [Bool.and_eq_true, decide_eq_true_eq, Option.isSome_iff_exists, and_assoc]

/-- The rule of a node of a firm tree can be asked for again. -/
theorem licensed_of_node? {tree : Tree} {gr : Grammar} {sh : Shape} {id rule : Nat} {s : Slot}
    (h : tree.Firm gr sh) (hid : id ∈ sh.ids) (hnode : tree.node? id = some s)
    (hrule : s.info.rule = some rule) : ∃ r, gr.rules[rule]? = some r ∧ r.isFragment = false :=
  h.licensed _ (Tree.infoAt_mem_nodes hid) rule (by rw [Tree.infoAt_of_node? hnode]; exact hrule)

/-- An edit that is patched is aimed at a node of the tree, and somebody has examined the edited stretch
there. -/
theorem targeted_of_candidates {tree : Tree} {gr : Grammar} {sh : Shape} {e : Edit} {id : Nat} {s : Slot}
    (h : tree.Firm gr sh) (hfits : e.Fits tree.source.text) (hid : id ∈ (candidates tree e).1)
    (hnode : tree.node? id = some s) (hencloses : encloses s e = true) :
    ∃ ls sub, sh = Shape.plug ls sub ∧ sub.id = id ∧ tree.Targeted ls sub e
      ∧ ∃ x, e.offset ≤ x ∧ x < max (e.offset + e.oldLength) (e.offset + 1)
        ∧ (tree.subtree sub).Examined x := by
  obtain ⟨hdocument, hroot, ls, sub, rfl, rfl, houter, j, hj, hreads⟩ :=
    candidates_spec h.arranged h.guarded h.orderly hid
  have hordered : ∀ j ∈ (Shape.plug ls sub).ids, (tree.infoAt j).reads.Ordered :=
    Tree.orderly_subtree.1 h.orderly
  obtain ⟨-, hinvoked, hstop⟩ := encloses_iff.1 hencloses
  rw [← Tree.infoAt_of_node? hnode] at hinvoked hstop
  -- one of the readers of the stretch is part of the node
  obtain ⟨x, hx, hlt, hread⟩ :=
    (Footprint.intersects_iff (hordered j (Shape.mem_ids_plug.2 (.inl hj)))).1 hreads
  have hexamined : (tree.subtree sub).Examined x := Tree.examined_subtree.2 ⟨j, hj, hread⟩
  rw [touched, hfits.stop_eq] at hlt
  refine ⟨ls, sub, rfl, rfl, ⟨hfits, ?_, hinvoked, ?_, ?_, ?_, x, hx, hexamined⟩, x, hx, hlt, hexamined⟩
  · rintro rfl
    exact hroot h.arranged.root
  · rwa [← hfits.stop_eq]
  · exact avoids_of_intersects h.ordered hfits hdocument
  · intro j hj
    refine avoids_of_intersects (hordered j (Shape.mem_ids_plug.2 (.inr hj))) hfits ?_
    simpa [Tree.Reads] using houter j hj

/-- The end of a node that an edit is aimed at lies behind the edit, so it is carried along. -/
theorem move_stop_eq {tree : Tree} {gr : Grammar} {ls : List Shape.Level} {sub : Shape} {e : Edit}
    {s : Slot} (h : tree.Firm gr (Shape.plug ls sub)) (ht : tree.Targeted ls sub e)
    (hnode : tree.node? sub.id = some s) (hencloses : encloses s e = true) :
    Offset.move s.info.stop e.delta = e.carry s.info.stop := by
  have hlt := h.offset_lt_stop ht
  rw [Tree.infoAt_of_node? hnode] at hlt
  exact (Offset.shift_of_behind ⟨hlt, (encloses_iff.1 hencloses).2.2⟩).symm

/-- Patching an edit into a tree that is in step with the text keeps the tree firm. -/
theorem firm_graft {p : Parser} {tree : Tree} {sh : Shape} {e : Edit} {id depth : Nat} {s : Slot}
    {replacement : Subtree} {log : Log} (h : tree.Firm p.grammar sh) (hfits : e.Fits tree.source.text)
    (hid : id ∈ (candidates tree e).1) (hnode : (candidates tree e).2.node? id = some s)
    (hencloses : encloses s e = true)
    (hregion : (p.region (tree.source.edit e) (s.info.rule.getD 0) s.info.invoked
      (Offset.move s.info.stop e.delta) depth log).1 = .ok (some replacement)) :
    ∃ sh, ((candidates tree e).2.graft id replacement e).Firm p.grammar sh := by
  have hview := candidates_sameView tree e
  rw [hview.node?_eq] at hnode
  obtain ⟨ls, sub, rfl, rfl, ht, -⟩ := targeted_of_candidates h hfits hid hnode hencloses
  have hinfo := Tree.infoAt_of_node? hnode
  -- the rule of the node can be asked for again
  obtain ⟨⟨rule, hrule⟩, hle, -⟩ := encloses_iff.1 hencloses
  obtain ⟨r, hr, hfragment⟩ :=
    licensed_of_node? h (Shape.mem_ids_plug.2 (.inl sub.id_mem_ids)) hnode hrule
  rw [hrule, Option.getD_some] at hregion
  have hstart : s.info.invoked ≤ (tree.source.edit e).size :=
    Nat.le_trans hle hfits.offset_le_size
  obtain ⟨hmade, hinvoked, hstop, -⟩ := p.region_made hr hfragment hstart hregion
  refine (h.sameView hview).graft (ht.sameView hview) ?_ ?_ ?_
  · rwa [hview.source]
  · rw [hview.infoAt_eq, hinfo, hinvoked]
  · rw [hview.infoAt_eq, hinfo, hstop, move_stop_eq h ht hnode hencloses]

/-- Every step keeps the tree firm. -/
theorem Step.firm (h : Step d op d') (hstep : d.InStep) (hd : d.Firm)
    (hsize : d.text.size < Text.maxSize) (hsize' : d'.text.size < Text.maxSize) : d'.Firm := by
  cases h with
  | parsed htree =>
    rintro _ ⟨⟩
    exact firm_of_parse hsize' htree
  | reparsed htree =>
    rintro _ ⟨⟩
    exact firm_of_parse hsize' htree
  | refused _ =>
    intro tree htree
    cases htree
  | @kept e err tree log stats _ htree =>
    intro tree' htree'
    change tree = some tree' at htree'
    rcases htree with rfl | ⟨t, ht, -, -, rfl⟩
    · exact hd tree' htree'
    · cases htree'
      obtain ⟨hlt, sh, hfirm⟩ := hd t ht
      have hview := candidates_sameView t (e.clamp d.text.size)
      exact ⟨by rwa [hview.source], sh, hfirm.sameView hview⟩
  | @patched e tree id s replacement log stats htree hpatchable hstale hid hnode hencloses hregion =>
    rintro _ ⟨⟩
    obtain ⟨-, sh, hfirm⟩ := hd tree htree
    have hsource := hstep.tree tree htree hstale
    have hfits : (e.clamp d.text.size).Fits d.text := Edit.clamp_fits hsize hsize'
    rw [(hstep.patchable hpatchable).2.2, ← hsource] at hregion
    refine ⟨?_, firm_graft hfirm ?_ hid hnode hencloses hregion⟩
    · rw [Tree.source_graft, (candidates_sameView tree _).source, hsource]
      exact hsize'
    · rw [hsource]
      exact hfits
  | invalidated => exact hd
  | emptied =>
    intro tree htree
    cases htree
  | @looked id =>
    intro tree htree
    obtain ⟨tree, hsome, rfl⟩ := Option.map_eq_some_iff.1 htree
    obtain ⟨hlt, sh, hfirm⟩ := hd tree hsome
    have hview := tree.catchUp_sameView id
    exact ⟨by rwa [hview.source], sh, hfirm.sameView hview⟩

theorem firm_performAll (p : Parser) {ops : List Op} (hshort : Short #[] ops) (log : Log) :
    ((ofParser p).performAll ops log).1.Firm :=
  (performAll_induct (P := fun d => d.InStep ∧ d.Firm)
    (fun hd hsize hsize' h => ⟨h.inStep hd.1 hsize hsize', h.firm hd.1 hd.2 hsize hsize'⟩)
    ⟨inStep_ofParser p, fun _ h => by cases h⟩ (show (0 : Nat) < Text.maxSize by decide) hshort log).2

/-- **The nodes of a live tree lie inside each other and inside their text.** After any run of
operations, none of whose texts is too long for its offsets, the tree of the document, be it fresh,
patched or stale, has all its nodes inside the text that it belongs to, children inside their parents,
siblings behind each other, and every node can be asked for its text. -/
theorem performAll_spans (p : Parser) {ops : List Op} (hshort : Short #[] ops) (log : Log)
    {tree : Tree} (htree : ((ofParser p).performAll ops log).1.tree = some tree) :
    ∀ id ∈ tree.preorder, ∃ s, tree.node? id = some s ∧ tree.Spans id s := by
  obtain ⟨hsize, sh, hfirm⟩ := firm_performAll p hshort log tree htree
  exact fun id hid => hfirm.spans hsize hid

theorem performAll_pairRun_preorder :
    ((ofParser pairParser).performAll pairRun #[]).1.tree.map Tree.preorder = some [0, 1, 2] := by
  cbv

/-- The two signs of a patched pair lie inside the root, one behind the other. -/
theorem performAll_pairRun_spans :
    Short #[] pairRun ∧ ∃ tree, ((ofParser pairParser).performAll pairRun #[]).1.tree = some tree
      ∧ tree.preorder = [0, 1, 2] ∧ ∀ id ∈ tree.preorder, ∃ s, tree.node? id = some s ∧ tree.Spans id s := by
  obtain ⟨tree, htree, hpreorder⟩ := Option.map_eq_some_iff.1 performAll_pairRun_preorder
  exact ⟨short_pairRun, tree, htree, hpreorder, performAll_spans pairParser short_pairRun #[] htree⟩

end Document

end Packrat
