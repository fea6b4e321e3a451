import Packrat.Proofs.Parse.Across
import Packrat.Proofs.Tree.Firm

/-!
Trees that a derivation gives.

A tree is derived if its text is accepted with a tree that agrees with it (`Tree.Derived`): node by node
the same, but for positions, depths and the form in which the reads are kept.  A parse makes a derived
tree; and a patch keeps it derived, however many edits have been patched into it before, if the new node
has an extent (`Tree.Firm.derived_graft`).

Nobody outside of the node that is matched anew has examined the edited stretch.  So the derivation is
found again in the edited text (`Parse.Patch.Sound.accepts`), with what the rule of the node gives there
in the place of the node.  The tree has to be followed along: its nodes stand where those of the
derivation do, with the old node at the place of the patch (`Tree.Stands`), and a patch carries the nodes
outside of the place along just as the derivation does (`Tree.Stands.turns`).
-/

namespace Packrat

theorem forall₂_append_left {α β : Type} {rel : α → β → Prop} {as₁ as₂ : List α} {bs : List β}
    (h : List.Forall₂ rel (as₁ ++ as₂) bs) :
    ∃ bs₁ bs₂, bs = bs₁ ++ bs₂ ∧ List.Forall₂ rel as₁ bs₁ ∧ List.Forall₂ rel as₂ bs₂ := by
  induction as₁ generalizing bs with
  | nil => exact ⟨[], bs, rfl, .nil, h⟩
  | cons a as₁ ih =>
    cases h with
    | @cons _ b _ bs hab hrest =>
      obtain ⟨bs₁, bs₂, rfl, h₁, h₂⟩ := ih hrest
      exact ⟨b :: bs₁, bs₂, rfl, .cons hab h₁, h₂⟩

theorem forall₂_trans_of_mem {α β γ : Type} {rel : α → β → Prop} {rel' : β → γ → Prop}
    {rel'' : α → γ → Prop} {as : List α} {bs : List β} {cs : List γ} (h : List.Forall₂ rel as bs)
    (h' : List.Forall₂ rel' bs cs) (htrans : ∀ a ∈ as, ∀ b c, rel a b → rel' b c → rel'' a c) :
    List.Forall₂ rel'' as cs := by
  induction h generalizing cs with
  | nil =>
    cases h'
    exact .nil
  | cons hab _ ih =>
    cases h' with
    | cons hbc hrest =>
      refine .cons (htrans _ List.mem_cons_self _ _ hab hbc) (ih hrest fun a ha => ?_)
      exact htrans a (List.mem_cons_of_mem _ ha)

/-! ### Trees that agree -/

/-- A node that says the same as another one, position and depth aside; what they have examined is the
same set of offsets. -/
structure NodeInfo.Agrees (i i' : NodeInfo) : Prop where
  type : i'.type = i.type
  value : i'.value = i.value
  start : i'.start = i.start
  stop : i'.stop = i.stop
  invoked : i'.invoked = i.invoked
  rule : i'.rule = i.rule
  reads : ∀ x, i'.reads.mem x ↔ i.reads.mem x

/-- Trees of the same form, whose nodes agree one by one. -/
def Subtree.Agrees : Subtree → Subtree → Prop := Subtree.Alike NodeInfo.Agrees

/-- If a node follows one after an edit and another node follows what agrees with that one, the two
agree. -/
theorem NodeInfo.Agrees.of_follows {e : Edit} {i i₀ i₁ i₂ : NodeInfo} (h : i.Agrees i₀)
    (h₁ : i.Follows e i₁) (h₂ : i₀.Follows e i₂) : i₁.Agrees i₂ where
  type := by rw [h₂.type, h₁.type, h.type]
  value := by rw [h₂.value, h₁.value, h.value]
  start := by rw [h₂.start, h₁.start, h.start]
  stop := by rw [h₂.stop, h₁.stop, h.stop]
  invoked := by rw [h₂.invoked, h₁.invoked, h.invoked]
  rule := by rw [h₂.rule, h₁.rule, h.rule]
  reads x := by
    rw [h₂.reads x, h₁.reads x]
    simp only [h.reads]

theorem Subtree.agrees_flat (t : Subtree) : t.Agrees t.flat := by
  induction t using Subtree.induct with
  | step info children ih =>
    rw [flat_node]
    refine .node ⟨rfl, rfl, rfl, rfl, rfl, rfl, fun _ => Iff.rfl⟩ ?_
    rw [List.forall₂_map_right_iff, List.forall₂_same]
    exact ih

theorem Subtree.Agrees.of_flat {s t : Subtree} (h : s.Agrees t.flat) : s.Agrees t := by
  induction s using Subtree.induct generalizing t with
  | step info children ih =>
    cases t with
    | node info' children' =>
      rw [flat_node] at h
      cases h with
      | node hinfo hchildren =>
        refine .node ⟨hinfo.type, hinfo.value, hinfo.start, hinfo.stop, hinfo.invoked, hinfo.rule,
          hinfo.reads⟩ ?_
        rw [List.forall₂_map_right_iff] at hchildren
        exact forall₂_imp_of_mem hchildren fun c hc _ hagrees => ih c hc hagrees

theorem Subtree.Agrees.info {s t : Subtree} (h : s.Agrees t) : s.info.Agrees t.info := by
  cases h with
  | node hinfo _ => exact hinfo

/-- Trees that agree have examined the same. -/
theorem Subtree.Agrees.examined_iff {s t : Subtree} (h : s.Agrees t) {x : Nat} :
    t.Examined x ↔ s.Examined x := by
  induction s using Subtree.induct generalizing t with
  | step info children ih =>
    cases h with
    | node hinfo hchildren =>
      rw [examined_node, examined_node, hinfo.reads x]
      refine or_congr_right ⟨fun ⟨c', hc', hx⟩ => ?_, fun ⟨c, hc, hx⟩ => ?_⟩
      · obtain ⟨c, hc, hagrees⟩ := exists_of_forall₂_right hchildren hc'
        exact ⟨c, hc, (ih c hc hagrees).1 hx⟩
      · obtain ⟨c', hc', hagrees⟩ := exists_of_forall₂_left hchildren hc
        exact ⟨c', hc', (ih c hc hagrees).2 hx⟩

namespace Tree

open Parse Shape

/-! ### Places -/

/-- A tree that agrees with a live tree down to a place below some levels, and has `old` there. -/
inductive Stands (t : Tree) (sub : Shape) (old : Subtree) : List Level → Subtree → Prop
  | place : (t.subtree sub).Agrees old → Stands t sub old [] old
  | level {ls : List Level} {l : Level} {info : NodeInfo} {left right : List Subtree} {s : Subtree} :
      (t.infoAt l.id).Agrees info → List.Forall₂ (fun c s => (t.subtree c).Agrees s) l.left left →
      Stands t sub old ls s → List.Forall₂ (fun c s => (t.subtree c).Agrees s) l.right right →
      Stands t sub old (ls ++ [l]) (.node info (left ++ s :: right))

variable {t g : Tree} {ls : List Level} {c sub sub' : Shape} {old s s' : Subtree}

/-- A tree that agrees with a live tree has something at every place. -/
theorem exists_stands (h : (t.subtree (plug ls sub)).Agrees s) : ∃ old, t.Stands sub old ls s := by
  -- from the root down, so along the levels from the last one
  induction ls using List.reverseRecOn generalizing s with
  | nil => exact ⟨s, .place h⟩
  | append_singleton ls l ih =>
    rw [plug_append] at h
    change (t.subtree (.node l.id (l.left ++ plug ls sub :: l.right))).Agrees s at h
    rw [subtree_node] at h
    cases h with
    | node hinfo hchildren =>
      rw [List.forall₂_map_left_iff] at hchildren
      obtain ⟨left, bs, rfl, hleft, hrest⟩ := forall₂_append_left hchildren
      cases hrest with
      | cons hmiddle hright =>
        obtain ⟨old, hold⟩ := ih hmiddle
        exact ⟨old, .level hinfo hleft hold hright⟩

namespace Stands

theorem agrees (h : t.Stands sub old ls s) : (t.subtree sub).Agrees old := by
  induction h with
  | place h => exact h
  | level _ _ _ _ ih => exact ih

/-- What stands at the place is part of the tree. -/
theorem mem_parts (h : t.Stands sub old ls s) : old ∈ s.parts := by
  induction h with
  | place _ => exact Subtree.mem_parts_self _
  | level _ _ _ _ ih => exact Subtree.mem_parts_node.2 (.inr ⟨_, by simp, ih⟩)

/-- What stands above a place is larger than what stands there. -/
theorem length_le (h : t.Stands sub old ls s) : old.nodes.length + ls.length ≤ s.nodes.length := by
  induction h with
  | place _ => simp
  | level _ _ _ _ ih =>
    simp only [Subtree.nodes_node, List.flatMap_append, List.flatMap_cons, List.length_append,
      List.length_cons, List.length_nil]
    omega

/-- What stands above a place differs from what stands there. -/
theorem ne_old (h : t.Stands sub old ls s) (hne : ls ≠ []) : s ≠ old := by
  rintro rfl
  have hlen := h.length_le
  have := List.length_pos_of_ne_nil hne
  omega

variable {p : Patch}

theorem misses_subtree (h : ∀ j ∈ c.ids, p.edit.Misses (t.infoAt j).reads.mem)
    (hs : (t.subtree c).Agrees s) : p.edit.Misses s.Examined := by
  intro x h₁ h₂ hx
  obtain ⟨j, hj, hread⟩ := examined_subtree.1 (hs.examined_iff.1 hx)
  exact h j hj x h₁ h₂ hread

/-- If nobody outside of the place has examined the touched stretch, what stands there shields it. -/
theorem shields (h : t.Stands sub p.old ls s)
    (houter : ∀ j ∈ outer ls, p.edit.Misses (t.infoAt j).reads.mem) : p.Shields s := by
  generalize hold : p.old = old at h
  induction h with
  | place _ => exact hold ▸ .old
  | @level ls l info left right s hinfo hleft _ hright ih =>
    rw [outer_append] at houter
    have hlevel := fun j hj => houter j (List.mem_append_right _ (mem_outer_cons.2 hj))
    have hbeside : ∀ c ∈ l.left ++ l.right, ∀ s, (t.subtree c).Agrees s → p.Shields s :=
      fun c hc s hs => Patch.shields_of_misses
        (misses_subtree (fun j hj => hlevel j (.inr (.inl ⟨c, hc, hj⟩))) hs)
    refine .node ((hlevel l.id (.inl rfl)).mono fun x => (hinfo.reads x).1) fun s' hs' => ?_
    rcases List.mem_append.1 hs' with hs' | hs'
    · obtain ⟨c, hc, hs⟩ := exists_of_forall₂_right hleft hs'
      exact hbeside c (List.mem_append_left _ hc) s' hs
    · rcases List.mem_cons.1 hs' with rfl | hs'
      · exact ih fun j hj => houter j (List.mem_append_left _ hj)
      · obtain ⟨c, hc, hs⟩ := exists_of_forall₂_right hright hs'
        exact hbeside c (List.mem_append_right _ hc) s' hs

/-- The tree of a node, if nobody in it has examined the touched stretch, is carried along. -/
theorem turns_beside (hold : ¬p.edit.Misses p.old.Examined)
    (hmisses : ∀ j ∈ c.ids, p.edit.Misses (t.infoAt j).reads.mem)
    (hfollows : ∀ j ∈ c.ids, (t.infoAt j).Follows p.edit (g.infoAt j))
    (hs : (t.subtree c).Agrees s) (h : p.Turns s s') : (g.subtree c).Agrees s' := by
  induction c using Shape.induct generalizing s s' with
  | step id children ih =>
    have hexamined := misses_subtree hmisses hs
    cases h with
    -- the old node has examined the touched stretch, and nobody here has
    | patch => exact absurd hexamined hold
    | node hinfo _ hchildren =>
      rw [subtree_node] at hs ⊢
      cases hs with
      | node hagrees hbelow =>
        refine .node (hagrees.of_follows (hfollows id (id_mem_ids (.node id children))) hinfo) ?_
        rw [List.forall₂_map_left_iff] at hbelow ⊢
        refine forall₂_trans_of_mem hbelow hchildren fun c hc s s' hs hturns => ih c hc ?_ ?_ hs hturns
        · exact fun j hj => hmisses j (mem_ids_of_child hc hj)
        · exact fun j hj => hfollows j (mem_ids_of_child hc hj)

/-- **A tree that is patched is what becomes of it**, if the nodes outside of the place are carried
along and have not examined the touched stretch. -/
theorem turns {ctx : Context} {src' : Source} (hp : p.Sound ctx src') (h : t.Stands sub p.old ls s)
    (hmisses : ∀ j ∈ outer ls, p.edit.Misses (t.infoAt j).reads.mem)
    (hfollows : ∀ j ∈ outer ls, (t.infoAt j).Follows p.edit (g.infoAt j))
    (hnew : (g.subtree sub').Agrees p.new) (hturns : p.Turns s s') :
    (g.subtree (plug ls sub')).Agrees s' := by
  generalize hold : p.old = old at h
  induction h generalizing s' with
  | place _ =>
    subst hold
    exact hp.turns_old hturns ▸ hnew
  | @level ls l info left right s hinfo hleft hs hright ih =>
    have hne := (hs.level hinfo hleft hright).ne_old (by simp)
    rw [outer_append] at hmisses hfollows
    have houter : ∀ c ∈ l.left ++ l.right, ∀ j ∈ c.ids, j ∈ outer ls ++ outer [l] := fun c hc j hj =>
      List.mem_append_right _ (mem_outer_cons.2 (.inr (.inl ⟨c, hc, hj⟩)))
    have hbeside : ∀ c ∈ l.left ++ l.right, ∀ s s', (t.subtree c).Agrees s → p.Turns s s' →
        (g.subtree c).Agrees s' := fun c hc s s' hs hturns =>
      turns_beside hp.examined (fun j hj => hmisses j (houter c hc j hj))
        (fun j hj => hfollows j (houter c hc j hj)) hs hturns
    rw [plug_append]
    show (g.subtree (.node l.id (l.left ++ plug ls sub' :: l.right))).Agrees s'
    rw [subtree_node]
    generalize hnode : Subtree.node info (left ++ s :: right) = s₀ at hne hturns
    cases hturns with
    -- the node of a level is not the old one: that one is smaller
    | patch => exact absurd hold hne
    | node hfollowed _ hchildren =>
      cases hnode
      obtain ⟨left', rest', rfl, hleft', hrest⟩ := forall₂_append_left hchildren
      cases hrest with
      | cons hmiddle hright' =>
        refine .node (hinfo.of_follows (hfollows l.id (by simp [outer])) hfollowed) ?_
        rw [List.forall₂_map_left_iff]
        refine List.rel_append ?_ (.cons (ih ?_ ?_ hmiddle) ?_)
        · exact forall₂_trans_of_mem hleft hleft' fun c hc => hbeside c (List.mem_append_left _ hc)
        · exact fun j hj => hmisses j (List.mem_append_left _ hj)
        · exact fun j hj => hfollows j (List.mem_append_left _ hj)
        · exact forall₂_trans_of_mem hright hright' fun c hc => hbeside c (List.mem_append_right _ hc)

end Stands

/-! ### Patched trees -/

section Graft

variable {p : Parser} {e : Edit} {start : Bytes} {root : Subtree} {reads : Footprint} {id depth : Nat}
  {log : Log} {replacement : Subtree}

theorem Firm.graft_follows {gr : Grammar} (h : t.Firm gr (plug ls sub)) (ht : t.Targeted ls sub e)
    (replacement : Subtree) :
    ∃ sub', (t.graft sub.id replacement e).asSubtree
        = (t.graft sub.id replacement e).subtree (plug ls sub')
      ∧ (t.graft sub.id replacement e).subtree sub' = replacement
      ∧ ∀ j ∈ outer ls, (t.infoAt j).Follows e ((t.graft sub.id replacement e).infoAt j) := by
  obtain ⟨sub', -, harranged, hsubtree, hcarried⟩ := h.graft_spec ht replacement
  refine ⟨sub', harranged.asSubtree_eq, hsubtree, fun j hj => ?_⟩
  have hd := (hcarried j hj).toDisplaced
  have hj' : j ∈ (plug ls sub).ids := mem_ids_plug.2 (.inr hj)
  refine ⟨hd.type, hd.value, hd.start, hd.stop, hd.invoked, hd.rule, ?_⟩
  refine (hd.mem_reads ht.fits (orderly_subtree.1 h.orderly j hj') ?_ (ht.outer j hj)).2
  exact fun x hx => h.examined_le x (examined_subtree.2 ⟨j, hj', hx⟩)

theorem Firm.documentReads_graft {gr : Grammar} (h : t.Firm gr (plug ls sub)) (ht : t.Targeted ls sub e)
    (replacement : Subtree) :
    e.Takes t.documentReads.mem (t.graft sub.id replacement e).documentReads.mem := by
  obtain ⟨sub', hg⟩ := grafted_spec h.arranged e replacement
  have hreads := (h.mem_documentReads ht hg).2
  rw [graft_eq]
  split
  · exact hreads
  · exact hreads

/-- The node at a place, as the derivation has it, and what its rule gives in the edited text. -/
def patchAt (t : Tree) (sub : Shape) (old : Subtree) (e : Edit) (id : Nat) (replacement : Subtree) :
    Patch :=
  ⟨e, id, (t.infoAt sub.id).invoked, (t.infoAt sub.id).stop, old, replacement.flat⟩

section Region

variable (h : t.Firm p.grammar (plug ls sub)) (ht : t.Targeted ls sub e)
  (hcomments : ∀ c ∈ p.grammar.comments, c.FitsWindow)
  (hexamined : ¬e.Misses (t.subtree sub).Examined) (hrule : (t.infoAt sub.id).rule = some id)
  (hregion : (p.region (t.source.edit e) id (t.infoAt sub.id).invoked (e.carry (t.infoAt sub.id).stop)
    depth log).1 = .ok (some replacement))
  (hlt : (t.infoAt sub.id).invoked < e.carry (t.infoAt sub.id).stop)

include h ht hcomments hexamined hrule hregion hlt

theorem Firm.patchAt_sound (hold : (t.subtree sub).Agrees old)
    (hmatched : old.Matched ⟨p.grammar, t.source⟩) :
    (t.patchAt sub old e id replacement).Sound ⟨p.grammar, t.source⟩ (t.source.edit e) := by
  obtain ⟨r, hr, hfragment⟩ :=
    h.licensed _ (infoAt_mem_nodes (mem_ids_plug.2 (.inl sub.id_mem_ids))) id hrule
  have hinfo : (t.infoAt sub.id).Agrees old.info := by
    rw [← info_subtree]
    exact hold.info
  obtain ⟨-, tr, hd⟩ := hmatched id (hinfo.rule.trans hrule)
  rw [hinfo.invoked, hinfo.stop] at hd
  have hstart : (t.infoAt sub.id).invoked ≤ (t.source.edit e).size :=
    Nat.le_trans ht.invoked_le ht.fits.offset_le_size
  obtain ⟨tr', hd'⟩ := p.region_derives hr hfragment hstart hregion
  refine ⟨rfl, ht.fits, hcomments, ⟨r, hr, hfragment⟩, ⟨tr, hd⟩, ⟨tr', hd'⟩,
    ht.invoked_le, h.offset_lt_stop ht, ht.le_stop, fun hmisses => hexamined ?_, hlt⟩
  exact hmisses.mono fun x hx => hold.examined_iff.2 hx

/-- **A document with a patched tree is accepted**, with a tree that agrees with the patched one. -/
theorem Firm.accepts_graft (haccepts : Accepts ⟨p.grammar, t.source⟩ start root reads)
    (hroot : (t.subtree (plug ls sub)).Agrees root) (hreads : ∀ x, t.documentReads.mem x ↔ reads.mem x) :
    ∃ root' reads', Accepts ⟨p.grammar, t.source.edit e⟩ start root' reads'
      ∧ (t.graft sub.id replacement e).asSubtree.Agrees root'
      ∧ ∀ x, (t.graft sub.id replacement e).documentReads.mem x ↔ reads'.mem x := by
  obtain ⟨old, hstands⟩ := exists_stands hroot
  have hp := h.patchAt_sound ht hcomments hexamined hrule hregion hlt hstands.agrees
    (haccepts.matched old hstands.mem_parts)
  have hmisses : e.Misses reads.mem := fun x h₁ h₂ hx => ht.document x h₁ h₂ ((hreads x).2 hx)
  obtain ⟨root', reads', haccepts', hturns, htakes⟩ :=
    hp.accepts haccepts (Stands.shields (p := t.patchAt sub old e id replacement) hstands ht.outer) hmisses
  obtain ⟨sub', hroot', hnew, hfollows⟩ := h.graft_follows ht replacement
  refine ⟨root', reads', haccepts', ?_, fun x => ?_⟩
  · rw [hroot']
    refine Stands.turns hp hstands ht.outer hfollows ?_ hturns
    rw [hnew]
    exact replacement.agrees_flat
  · exact (h.documentReads_graft ht replacement x).trans ((htakes.congr hreads fun _ => .rfl) x).symm

end Region

end Graft

/-! ### Derived trees -/

/-- The text of the tree is accepted, with a tree that agrees with it, and the reads of the document are
those outside of it. -/
def Derived (gr : Grammar) (t : Tree) : Prop :=
  ∃ root reads, Accepts ⟨gr, t.source⟩ gr.start root reads ∧ t.asSubtree.Agrees root
    ∧ ∀ x, t.documentReads.mem x ↔ reads.mem x

theorem Derived.sameView {gr : Grammar} {sh : Shape} (h : t.Derived gr) (hview : SameView t g)
    (ht : t.Arranged sh) : g.Derived gr := by
  unfold Derived
  rw [hview.source, hview.documentReads, (hview.arranged ht).asSubtree_eq, hview.subtree_eq,
    ← ht.asSubtree_eq]
  exact h

end Tree

end Packrat
