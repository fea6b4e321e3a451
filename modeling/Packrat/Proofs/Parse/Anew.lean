import Packrat.Proofs.Parse.Parts

/-!
Matching a node anew.

A parse meets a rule with a memory full of earlier results, inside of other rules and as deep as these
go; what comes out of the rule depends on none of this.  So every node of a parse tree that a rule has
made has a derivation of its own (`Subtree.Matched`), the one it was made by.  A region that starts at such
a node follows a derivation too, this time with an empty memory; there is one derivation at most, so the
region gives the subtree of the node again, unless it goes too deep (`Parser.region_of_parse`).
-/

namespace Packrat

/-! ### Nodes with a derivation of their own -/

open Parse in
/-- The rule of the node, if it has one, derives the node where it was asked for. -/
def Subtree.Matched (ctx : Context) (s : Subtree) : Prop :=
  ∀ id, s.info.rule = some id → s.info.invoked ≤ ctx.source.size
    ∧ ∃ tr, Derives ctx (.rule id) s.info.invoked
        (.ok s.info.stop (.one (.node ⟨id, s.info.invoked⟩ s))) tr

namespace Parse

variable {ctx : Context}

theorem matched_of_rule_eq_none {s : Subtree} (h : s.info.rule = none) : s.Matched ctx := by
  intro id hid
  cases h.symm.trans hid

/-- A node is matched where it is made. -/
theorem matched_cases : NodeCases ctx (Subtree.Matched ctx) where
  token _ hrule _ := matched_of_rule_eq_none hrule
  operator hrule _ := matched_of_rule_eq_none hrule
  rule := by
    rintro id o s ho hrule rfl hd id' hid'
    cases hrule.symm.trans hid'
    exact ⟨ho, hd⟩
  program hrule _ := matched_of_rule_eq_none hrule

/-- All nodes of a document have derivations of their own. -/
theorem Accepts.matched {start : Bytes} {root : Subtree} {reads : Footprint}
    (h : Accepts ctx start root reads) : ∀ s ∈ root.parts, s.Matched ctx :=
  matched_cases.document h

end Parse

namespace Parser

open Parse Shape

/-- A region that starts where a node was asked for gives the node again, unless it goes too deep. -/
theorem region_of_matched (p : Parser) {source : Source} {s : Subtree} {id : Nat}
    (h : s.Matched ⟨p.grammar, source⟩) (hid : s.info.rule = some id) (depth : Nat) (log : Log) :
    (∃ rule depth', (p.region source id s.info.invoked s.info.stop depth log).1
        = .error (.exhausted p.maxDepth rule depth'))
      ∨ ∃ again, (p.region source id s.info.invoked s.info.stop depth log).1 = .ok (some again)
        ∧ again.flat = s := by
  obtain ⟨ho, tr, hd⟩ := h id hid
  have hlt : id < p.grammar.rules.size := by
    cases hd with
    | rule hrule _ _ _ =>
      by_contra hge
      rw [Array.getElem?_eq_none (show p.grammar.rules.size ≤ id by omega)] at hrule
      cases hrule
  have hends := invoke_tracks ⟨p.grammar, source⟩ (p.maxDepth - (depth - 1)) (depth - 1) id
    s.info.invoked hlt ho {} (sound_empty _)
  unfold Ends at hends
  cases hrun : invoke ⟨p.grammar, source⟩ (p.maxDepth - (depth - 1)) (depth - 1) id s.info.invoked {} with
  | error e s' =>
    rw [hrun] at hends
    obtain ⟨rule, depth', rfl⟩ := hends
    refine .inl ⟨rule, depth', ?_⟩
    unfold region
    simp only [EStateM.run, hrun]
    rfl
  | ok out s' =>
    rw [hrun] at hends
    obtain ⟨-, tr', hd', -⟩ := hends
    -- the one derivation there is
    obtain ⟨y, rfl, hy⟩ := Outcome.flat_eq_ok (hd'.unique hd).1
    obtain ⟨again, rfl, hagain⟩ : ∃ again, y = .one (.node ⟨id, s.info.invoked⟩ again) ∧ again.flat = s := by
      cases y with
      | many ps => cases hy
      | one piece =>
        cases piece with
        | text bytes o => cases hy
        | node key again =>
          cases hy
          exact ⟨again, rfl, rfl⟩
    exact .inr ⟨again, region_eq_some.2 ⟨_, s', hrun⟩, hagain⟩

/-- **A region agrees with the parse.** Every node of a parse tree that a rule has made can be matched
anew on its own: the region that begins where the rule was asked for and ends where the node does
goes too deep, or gives the subtree of the node again, with all types, values, children, spans,
positions, rules and reads.  This holds at any depth, so also at that of the node. -/
theorem region_of_parse (p : Parser) {source : Source} {log : Log} {tree : Tree}
    (hparse : (p.parse source log).1 = .ok tree) {id rule : Nat} {s : Slot} (hid : id ∈ tree.preorder)
    (hnode : tree.node? id = some s) (hrule : s.info.rule = some rule) (depth : Nat) (log' : Log) :
    (∃ name depth', (p.region source rule s.info.invoked s.info.stop depth log').1
        = .error (.exhausted p.maxDepth name depth'))
      ∨ ∃ again sub, (p.region source rule s.info.invoked s.info.stop depth log').1 = .ok (some again)
        ∧ tree.subtree? id = some sub ∧ again.flat = sub.flat := by
  obtain ⟨root, htree, haccepts⟩ := p.parse_accepts hparse
  obtain ⟨sh, -, harranged, hgrown⟩ := Tree.ofSubtree_spec source tree.documentReads root
  have hsubtree := hgrown.subtree_eq (Tree.version_ofSubtree source tree.documentReads root).symm
  rw [← htree] at harranged hsubtree
  rw [harranged.preorder_eq] at hid
  obtain ⟨ls, sub, rfl, rfl⟩ := exists_plug hid
  -- the subtree of the node is part of the tree
  have hpart := tree.mem_parts_plug ls sub
  rw [hsubtree] at hpart
  have hmatched := haccepts.matched (tree.subtree sub).flat
    (by rw [Subtree.parts_flat]; exact List.mem_map_of_mem hpart)
  have hinfo : (tree.subtree sub).flat.info = s.info.flat := by
    rw [Subtree.info_flat, Tree.info_subtree, Tree.infoAt_of_node? hnode]
  have hregion := p.region_of_matched hmatched (by rw [hinfo]; exact hrule) depth log'
  rw [hinfo] at hregion
  refine hregion.imp id fun ⟨again, hagain, hflat⟩ => ⟨again, tree.subtree sub, hagain, ?_, hflat⟩
  have hlen := harranged.perm.length_eq
  rw [List.length_append, List.length_range, (ids_plug ls sub).length_eq, List.length_append] at hlen
  have hheight := sub.height_le_length
  unfold Tree.subtree?
  rw [if_pos (harranged.lt_size hid),
    Tree.subtreeFrom_eq (Tree.linked_plug.1 harranged.linked).1 (by omega)]

theorem parse_twice_sign :
    (twiceParser.parse (.ofBytes (Bytes.ascii "+*")) #[]).1.toOption.map (fun tree =>
        (tree.preorder, (tree.node? 1).map fun s => (s.info.rule, s.info.invoked, s.info.stop)))
      = some ([0, 1, 2], some (some 1, 0, 1))
    ∧ (twiceParser.region (.ofBytes (Bytes.ascii "+*")) 1 0 1 1 #[]).1.isOk = true := by cbv

/-- The sign of "+*" can be matched anew. -/
theorem parse_twice_region :
    ∃ tree s again sub, (twiceParser.parse (.ofBytes (Bytes.ascii "+*")) #[]).1 = .ok tree
      ∧ 1 ∈ tree.preorder ∧ tree.node? 1 = some s ∧ s.info.rule = some 1
      ∧ (twiceParser.region (.ofBytes (Bytes.ascii "+*")) 1 s.info.invoked s.info.stop 1 #[]).1
          = .ok (some again)
      ∧ tree.subtree? 1 = some sub ∧ again.flat = sub.flat := by
  obtain ⟨hsign, hok⟩ := parse_twice_sign
  cases hparse : (twiceParser.parse (.ofBytes (Bytes.ascii "+*")) #[]).1 with
  | error e => rw [hparse] at hsign; cases hsign
  | ok tree =>
    rw [hparse] at hsign
    obtain ⟨hids, hnode⟩ := Prod.mk.inj (Option.some.inj hsign)
    obtain ⟨s, hnode, hs⟩ := Option.map_eq_some_iff.1 hnode
    obtain ⟨hrule, hs⟩ := Prod.mk.inj hs
    obtain ⟨hinvoked, hstop⟩ := Prod.mk.inj hs
    have hid : 1 ∈ tree.preorder := by rw [hids]; decide
    have hregion := region_of_parse twiceParser hparse hid hnode hrule 1 #[]
    rcases hregion with ⟨name, depth, hdeep⟩ | ⟨again, sub, hagain, hsub, hflat⟩
    · rw [hinvoked, hstop] at hdeep
      rw [hdeep] at hok
      cases hok
    · exact ⟨tree, s, again, sub, rfl, hid, hnode, hrule, hagain, hsub, hflat⟩

end Parser

end Packrat
