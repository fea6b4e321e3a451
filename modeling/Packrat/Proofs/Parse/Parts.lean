import Packrat.Proofs.Parse.Watch

/-!
The nodes that a parse makes.

A match makes nodes in four ways: for a token, for a rule, for a piece of text between other nodes,
and around a whole document.  What holds of each of these holds of all parts of everything that a
parse takes over, and so of all parts of the tree in the end (`NodeCases`).
-/

namespace Packrat

/-! ### Parts of a tree -/

namespace Subtree

mutual

/-- The subtrees of a tree, itself first. -/
def parts : Subtree → List Subtree
  | node info children => node info children :: partsAll children

def partsAll : List Subtree → List Subtree
  | [] => []
  | t :: ts => parts t ++ partsAll ts

end

variable {s t u : Subtree} {info : NodeInfo} {children : List Subtree}

theorem partsAll_eq (ts : List Subtree) : partsAll ts = ts.flatMap parts := by
  induction ts with
  | nil => rfl
  | cons t ts ih => rw [partsAll, ih, List.flatMap_cons]

theorem mem_parts_node : s ∈ (node info children).parts
    ↔ s = node info children ∨ ∃ c ∈ children, s ∈ c.parts := by
  rw [parts, partsAll_eq, List.mem_cons, List.mem_flatMap]

theorem mem_parts_self (t : Subtree) : t ∈ t.parts := by
  cases t with
  | node info children => exact mem_parts_node.2 (.inl rfl)

/-- The nodes of a tree are the tops of its parts. -/
theorem nodes_eq_map_parts (t : Subtree) : t.nodes = t.parts.map Subtree.info := by
  induction t using induct with
  | step info children ih =>
    rw [nodes_node, parts, partsAll_eq, List.map_cons, List.map_flatMap]
    exact congrArg (info :: ·) (List.flatMap_congr ih)

theorem info_mem_of_parts (h : s ∈ t.parts) : s.info ∈ t.nodes := by
  rw [nodes_eq_map_parts]
  exact List.mem_map_of_mem h

/-- The parts of a tree without depths. -/
theorem parts_flat (t : Subtree) : t.flat.parts = t.parts.map flat := by
  induction t using induct with
  | step info children ih =>
    rw [flat_node, parts, parts, partsAll_eq, partsAll_eq, List.map_cons, List.map_flatMap,
      List.flatMap_map, flat_node]
    exact congrArg (_ :: ·) (List.flatMap_congr ih)

end Subtree

namespace Tree

open Shape

/-- What stands at a place is part of the whole. -/
theorem mem_parts_plug (t : Tree) (ls : List Level) (sub : Shape) :
    t.subtree sub ∈ (t.subtree (plug ls sub)).parts := by
  induction ls using List.reverseRecOn with
  | nil => exact Subtree.mem_parts_self _
  | append_singleton ls l ih =>
    rw [plug_append]
    show _ ∈ (t.subtree (.node l.id (l.left ++ plug ls sub :: l.right))).parts
    rw [subtree_node]
    exact Subtree.mem_parts_node.2 (.inr ⟨_, List.mem_map_of_mem (by simp), ih⟩)

end Tree

/-! ### What holds of all nodes -/

namespace Parse

variable {ctx : Context} {Q : Subtree → Prop} {g : Goal} {o stop : Nat} {out : Outcome} {y : Yield}
  {tr : List Event}

/-- A rule that does not exist cannot be matched. -/
theorem invoke_of_unknown {id : Nat} (h : ctx.grammar.rules[id]? = none) (budget depth o : Nat) :
    ∃ s, invoke ctx budget depth id o {} = .error .beyond s := by
  refine ⟨{}, ?_⟩
  cases budget <;>
    simp only [invoke, Eval.remember, ruleEntry, ruleOf, h, bind, EStateM.bind, get, getThe,
      MonadStateOf.get, EStateM.get, Std.HashMap.getElem?_empty] <;>
    rfl

/-- A property of subtrees that can be shown where a node is made. -/
structure NodeCases (ctx : Context) (Q : Subtree → Prop) : Prop where
  token : ∀ {kind o stop info}, o ≤ ctx.source.size → info.rule = none →
    (tokenEntryOf ctx kind o).outcome = .ok stop (.one (.node ⟨tokenSymbol ctx kind, o⟩ (.node info []))) →
    Q (.node info [])
  operator : ∀ {info}, info.rule = none → info.type = Bytes.ascii "Operator" → Q (.node info [])
  rule : ∀ {id o s}, o ≤ ctx.source.size → s.info.rule = some id → s.info.invoked = o →
    (∃ tr, Derives ctx (.rule id) o (.ok s.info.stop (.one (.node ⟨id, o⟩ s))) tr) → Q s
  program : ∀ {s}, s.info.rule = none → s.info.type = Bytes.ascii "Program" → Q s

/-- The property holds of all parts of the nodes that an entry brings. -/
def Entry.Each (Q : Subtree → Prop) (e : Entry) : Prop :=
  ∀ n ∈ e.outcome.nodes, ∀ s ∈ n.2.parts, Q s

namespace NodeCases

/-- What stands below a node around a yield. -/
theorem wrap (law : NodeCases ctx Q) {info : NodeInfo}
    (hy : ∀ n ∈ y.nodes, n.2.flat = n.2 ∧ ∀ s ∈ n.2.parts, Q s) (hself : Q (y.wrap ctx info).flat) :
    ∀ s ∈ (y.wrap ctx info).flat.parts, Q s := by
  obtain ⟨info', children, heq, -, -, hchildren⟩ := y.wrap_eq ctx info
  rw [heq, Subtree.flat_node] at hself ⊢
  intro s hs
  rcases Subtree.mem_parts_node.1 hs with rfl | ⟨c, hc, hs⟩
  · exact hself
  · obtain ⟨child, hchild, rfl⟩ := List.mem_map.1 hc
    rcases hchildren child hchild with ⟨key, hmem⟩ | ⟨bytes, o, hleaf⟩
    · obtain ⟨hflat, hparts⟩ := hy _ hmem
      rw [hflat] at hs
      exact hparts s hs
    · rw [operatorLeaf?_eq_some hleaf, Subtree.flat_node, List.map_nil, Subtree.mem_parts_node] at hs
      rcases hs with rfl | ⟨c', hc', -⟩
      · exact law.operator rfl rfl
      · cases hc'

theorem each_token (law : NodeCases ctx Q) (ho : o ≤ ctx.source.size) (kind : TokenKind) :
    (tokenEntryOf ctx kind o).Each Q := by
  have htoken := @law.token kind o
  unfold tokenEntryOf at htoken ⊢
  have hshape := tokenResult_shape ctx 0 kind ⟨tokenSymbol ctx kind, o⟩
  generalize tokenResult ctx 0 kind ⟨tokenSymbol ctx kind, o⟩ = e at htoken hshape ⊢
  intro n hn s hs
  obtain ⟨m, hm, rfl⟩ := mem_nodes_flat.1 hn
  cases hshape with
  | leaf info _ _ _ hrule _ =>
    rw [Outcome.nodes_one] at hm
    cases Array.mem_singleton.1 hm
    rw [flatNode, Subtree.flat_node, List.map_nil, Subtree.mem_parts_node] at hs
    rcases hs with rfl | ⟨c, hc, -⟩
    · exact htoken ho hrule rfl
    · cases hc
  | bare stop => simp [Outcome.nodes, Yield.nodes, Yield.empty, Yield.pieces] at hm
  | fail => simp [Outcome.nodes] at hm

theorem each_rule (law : NodeCases ctx Q) (ho : o ≤ ctx.source.size) {id : Nat} {rule : Rule}
    (hrule : ctx.grammar.rules[id]? = some rule)
    (hd : Derives ctx (.expr rule.pattern) (skipped ctx o).1 out tr)
    (htr : ∀ e, .took e ∈ tr → e.Each Q) : (ruleEntryOf ctx id rule o out tr).Each Q := by
  have hderives := Derives.rule hrule hd (rfl : ruleEntryOf ctx id rule o out tr = _) rfl
  have hproper := hd.proper (skipped_linked ho).stop_le
  rw [ruleEntryOf_eq] at hderives ⊢
  cases out with
  | fail => simp [ruleResult, Entry.Each, Entry.flat, Outcome.flat, Outcome.nodes]
  | ok stop y =>
    have hkept : ∀ n ∈ y.nodes, n.2.flat = n.2 ∧ ∀ s ∈ n.2.parts, Q s := by
      intro n hn
      obtain ⟨e, he, hmem⟩ := hd.nodes_took (show n ∈ (Outcome.ok stop y).nodes from hn)
      exact ⟨congrArg Prod.snd ((hproper e he).made n hmem).flat_eq, htr e he n hmem⟩
    by_cases hfragment : rule.isFragment = true
    · rw [ruleResult_fragment hfragment]
      intro n hn
      rw [Entry.flat_outcome] at hn
      obtain ⟨m, hm, rfl⟩ := mem_nodes_flat.1 hn
      rw [flatNode, (hkept m hm).1]
      exact (hkept m hm).2
    · have hfragment : rule.isFragment = false := by simpa using hfragment
      rw [ruleResult_node hfragment] at hderives ⊢
      intro n hn
      rw [Entry.flat_outcome] at hn
      obtain ⟨m, hm, rfl⟩ := mem_nodes_flat.1 hn
      rw [Outcome.nodes_one] at hm
      cases Array.mem_singleton.1 hm
      obtain ⟨value, hvalue⟩ := y.wrap_info ctx (ruleInfo ctx 0 rule ⟨id, o⟩ (skipped ctx o).1 stop
        ((ruleFrame ctx o tr).settle y))
      have hinfo := Subtree.info_flat (y.wrap ctx (ruleInfo ctx 0 rule ⟨id, o⟩ (skipped ctx o).1 stop
        ((ruleFrame ctx o tr).settle y)))
      rw [hvalue] at hinfo
      refine law.wrap hkept (law.rule ho (congrArg NodeInfo.rule hinfo) (congrArg NodeInfo.invoked hinfo) ?_)
      rw [hinfo]
      exact ⟨_, hderives⟩

/-- The property holds of everything that is taken over. -/
theorem each (law : NodeCases ctx Q) (h : Derives ctx g o out tr) (ho : o ≤ ctx.source.size) :
    ∀ e, .took e ∈ tr → e.Each Q :=
  h.entries_induct (fun kind _ ho => law.each_token ho kind)
    (fun _ _ _ _ _ ho hrule hd htr => law.each_rule ho hrule hd htr) ho

/-- The property holds of all parts of the nodes that a match yields. -/
theorem parts (law : NodeCases ctx Q) (h : Derives ctx g o out tr) (ho : o ≤ ctx.source.size) :
    ∀ n ∈ out.nodes, n.2.flat = n.2 ∧ ∀ s ∈ n.2.parts, Q s := by
  intro n hn
  obtain ⟨e, he, hmem⟩ := h.nodes_took hn
  exact ⟨congrArg Prod.snd ((h.proper ho e he).made n hmem).flat_eq, law.each h ho e he n hmem⟩

/-- The property holds of all parts of a document. -/
theorem document (law : NodeCases ctx Q) {start : Bytes} {root : Subtree} {reads : Footprint}
    (h : Accepts ctx start root reads) : ∀ s ∈ root.parts, Q s := by
  obtain ⟨stop, y, tr, hd, -, rfl, -⟩ := h
  have hkept : ∀ n ∈ y.nodes, n.2.flat = n.2 ∧ ∀ s ∈ n.2.parts, Q s := law.parts hd (Nat.zero_le _)
  rcases rootOf_eq ctx stop y with ⟨key, tree, rfl, hroot⟩ | hroot
  · obtain ⟨hflat, hparts⟩ := hkept (key, tree) (by simp [Yield.nodes, Yield.pieces, Piece.node?])
    rw [hroot, hflat]
    exact hparts
  · rw [hroot]
    obtain ⟨value, hvalue⟩ := y.wrap_info ctx (programInfo ctx stop)
    have hinfo := Subtree.info_flat (y.wrap ctx (programInfo ctx stop))
    rw [hvalue] at hinfo
    exact law.wrap hkept (law.program (congrArg NodeInfo.rule hinfo) (congrArg NodeInfo.type hinfo))

/-- The property holds of what stands at the nodes of a parse tree. -/
theorem parse {p : Parser} {source : Source} {log : Log} {tree : Tree}
    (law : NodeCases ⟨p.grammar, source⟩ Q) (h : (p.parse source log).1 = .ok tree) {id : Nat} {s : Slot}
    (hid : id ∈ tree.preorder) (hnode : tree.node? id = some s) : ∃ sub, Q sub ∧ sub.info = s.info.flat := by
  obtain ⟨root, htree, haccepts⟩ := Parser.parse_accepts h
  obtain ⟨sh, -, harranged, hgrown⟩ := Tree.ofSubtree_spec source tree.documentReads root
  have hroot := hgrown.subtree_eq (Tree.version_ofSubtree source tree.documentReads root).symm
  rw [← htree] at harranged hroot
  rw [harranged.preorder_eq] at hid
  have hmem : s.info.flat ∈ root.flat.nodes := by
    rw [Subtree.nodes_flat, ← hroot, Tree.nodes_subtree, ← Tree.infoAt_of_node? hnode]
    exact List.mem_map_of_mem (List.mem_map_of_mem hid)
  rw [Subtree.nodes_eq_map_parts] at hmem
  obtain ⟨sub, hsub, hinfo⟩ := List.mem_map.1 hmem
  exact ⟨sub, law.document haccepts sub hsub, hinfo⟩

/-- The property holds of what stands at the nodes of a region. -/
theorem region {p : Parser} {source : Source} {id depth : Nat} {log : Log} {tree : Subtree}
    (law : NodeCases ⟨p.grammar, source⟩ Q) (ho : o ≤ source.size)
    (h : (p.region source id o stop depth log).1 = .ok (some tree)) {i : NodeInfo} (hi : i ∈ tree.nodes) :
    ∃ sub, Q sub ∧ sub.info = i.flat := by
  obtain ⟨key, s, hinvoke⟩ := Parser.region_eq_some.1 h
  have hid : id < p.grammar.rules.size := by
    by_contra hge
    have hunknown : (⟨p.grammar, source⟩ : Context).grammar.rules[id]? = none :=
      Array.getElem?_eq_none (Nat.not_lt.1 hge)
    obtain ⟨s', hnone⟩ := invoke_of_unknown hunknown (p.maxDepth - (depth - 1)) (depth - 1) o
    cases hinvoke.symm.trans hnone
  have htracks := invoke_tracks ⟨p.grammar, source⟩ (p.maxDepth - (depth - 1)) (depth - 1) id o hid ho
  obtain ⟨-, tr, hd, -⟩ := (htracks {} (sound_empty _)).of_run hinvoke
  have hmem : i.flat ∈ tree.flat.nodes := by
    rw [Subtree.nodes_flat]
    exact List.mem_map_of_mem hi
  rw [Subtree.nodes_eq_map_parts] at hmem
  obtain ⟨sub, hsub, hinfo⟩ := List.mem_map.1 hmem
  exact ⟨sub, (law.parts hd ho (key, tree.flat) (by
    rw [Outcome.nodes_flat]
    simp [flatNode])).2 sub hsub, hinfo⟩

end NodeCases

end Parse

end Packrat
