import Packrat.Proofs.Parse.Regions
import Packrat.Proofs.Parse.Yields

/-!
Where the reads of a node begin.

A match looks at nothing in front of its start, and if it looks at anything, then at its start as well
(`Derives.begins`): what comes first looks there, and what follows starts where the first has ended,
having looked at everything in between.  So the reads of a node and of all those below it begin at the
place where the node was asked for (`Subtree.Watchful`), and the rule of a node can be asked for again
(`NodeInfo.Licensed`).

What a region gives is a node in this sense: it is asked for where the region starts, ends where the
region ends, and has seen everything in between (`Parser.region_made`).
-/

namespace Packrat

/-- Nothing in front of an offset belongs to a set, and if anything does, the offset does. -/
def Begins (o : Nat) (S : Nat → Prop) : Prop := ∀ x, S x → o ≤ x ∧ S o

theorem Begins.congr {o : Nat} {S S' : Nat → Prop} (h : Begins o S) (heq : ∀ x, S' x ↔ S x) :
    Begins o S' :=
  fun x hx => ⟨(h x ((heq x).1 hx)).1, (heq o).2 (h x ((heq x).1 hx)).2⟩

/-- The rule that has made a node, if one has, is there and makes nodes. -/
def NodeInfo.Licensed (g : Grammar) (i : NodeInfo) : Prop :=
  ∀ id, i.rule = some id → ∃ r, g.rules[id]? = some r ∧ r.isFragment = false

/-- The reads of every node and of those below it begin where the node was asked for. -/
inductive Subtree.Watchful : Subtree → Prop
  | node {info : NodeInfo} {children : List Subtree} :
      Begins info.invoked (Subtree.node info children).Examined → (∀ c ∈ children, Watchful c) →
      Watchful (.node info children)

namespace Subtree

variable {t : Subtree}

theorem Watchful.of (h : Begins t.info.invoked t.Examined) (h' : ∀ c ∈ t.children, c.Watchful) :
    t.Watchful := by
  cases t with | node info children => exact .node h h'

theorem Watchful.begins (h : t.Watchful) : Begins t.info.invoked t.Examined := by
  cases h with | node h _ => exact h

theorem Watchful.children (h : t.Watchful) : ∀ c ∈ t.children, c.Watchful := by
  cases h with | node _ h => exact h

/-- Depths do not matter. -/
theorem watchful_flat : t.flat.Watchful ↔ t.Watchful := by
  induction t using induct with
  | step info children ih =>
    have hexamined : ∀ x, (node info children).flat.Examined x ↔ (node info children).Examined x :=
      Parse.Subtree.examined_flat _
    rw [flat_node] at hexamined ⊢
    constructor
    · rintro (⟨h₁, h₂⟩)
      refine .node (h₁.congr fun x => (hexamined x).symm) fun c hc => ?_
      exact (ih c hc).1 (h₂ _ (List.mem_map_of_mem hc))
    · rintro (⟨h₁, h₂⟩)
      refine .node (h₁.congr hexamined) fun c' hc' => ?_
      obtain ⟨c, hc, rfl⟩ := List.mem_map.1 hc'
      exact (ih c hc).2 (h₂ c hc)

theorem children_flat (t : Subtree) : t.flat.children = t.children.map flat := by
  cases t with | node info children => rw [flat_node]; rfl

theorem licensed_flat {g : Grammar} :
    (∀ i ∈ t.flat.nodes, i.Licensed g) ↔ ∀ i ∈ t.nodes, i.Licensed g := by
  rw [nodes_flat, List.forall_mem_map]
  exact Iff.rfl

end Subtree

namespace Parse

variable {ctx : Context} {g : Goal} {o m stop : Nat} {out : Outcome} {y : Yield} {tr tr' : List Event}

/-! ### Traces -/

/-- Something in a trace has examined an offset. -/
def Touches (tr : List Event) (x : Nat) : Prop := ∃ ev ∈ tr, ev.Examined x

theorem touches_append {x : Nat} : Touches (tr ++ tr') x ↔ Touches tr x ∨ Touches tr' x := by
  simp only [Touches, List.mem_append, or_and_right, exists_or]

theorem touches_took {e : Entry} {x : Nat} : Touches [.took e] x ↔ (Event.took e).Examined x := by
  simp only [Touches, List.mem_singleton, exists_eq_left]

theorem begins_nil : Begins o (Touches []) := by simp [Begins, Touches]

theorem begins_saw {l : Look} (h : l.start = o) : Begins o (Touches [.saw l]) := by
  simp only [Begins, Touches, List.mem_singleton, exists_eq_left, Event.Examined]
  omega

theorem begins_append (h : Begins o (Touches tr)) (h' : Begins m (Touches tr')) (hom : o ≤ m)
    (hlt : o < m → Touches tr o) : Begins o (Touches (tr ++ tr')) := by
  intro x hx
  rw [touches_append]
  rcases touches_append.1 hx with hx | hx
  · exact ⟨(h x hx).1, .inl (h x hx).2⟩
  · obtain ⟨hmx, hm⟩ := h' x hx
    refine ⟨Nat.le_trans hom hmx, ?_⟩
    rcases Nat.eq_or_lt_of_le hom with rfl | hom
    · exact .inr hm
    · exact .inl (hlt hom)

/-- Looks one behind the other begin where the first one does. -/
theorem linked_begins {looks : List Look} {a : Nat} (h : Scan.Linked ctx.source.text o looks a) :
    Begins o (Touches (looks.map .saw)) := by
  induction h with
  | nil => exact begins_nil
  | @cons o m stop l looks hin hom hle _ ih =>
    refine begins_append (begins_saw hin.start) ih hom fun hlt => ?_
    refine ⟨_, List.mem_singleton_self _, ?_, ?_⟩
    · exact Nat.le_of_eq hin.start
    · omega

/-- A match that has moved on has examined its start. -/
theorem Derives.touches_start (h : Derives ctx g o (.ok m y) tr) (ho : o ≤ ctx.source.size)
    (hlt : o < m) : Touches tr o := by
  have hlaid := h.laid ho rfl
  rcases hlaid.looked o (Nat.le_refl o) hlt with ⟨ev, hev, hx⟩ | ⟨n, hn, h₁, h₂⟩
  · refine ⟨ev, hev, ?_⟩
    cases ev with
    | saw l => exact hx
    | took e => exact .inl hx
  · obtain ⟨-, -, -, hsees⟩ := hlaid.within _ (Yield.mem_nodes.1 hn)
    obtain ⟨i, hi, hread, -⟩ := hsees o h₁ h₂
    obtain ⟨e, he, hmem⟩ := h.nodes_took (show n ∈ (Outcome.ok m y).nodes from hn)
    exact ⟨_, he, .inr ⟨n, hmem, i, hi, hread⟩⟩

/-- What skips ignored text and goes on behind it begins where the skipping does. -/
theorem skipped_begins (ho : o ≤ ctx.source.size) (h : Begins (skipped ctx o).1 (Touches tr)) :
    Begins o (Touches ((skipped ctx o).2.map .saw ++ tr)) := by
  have hlinked := skipped_linked ho
  refine begins_append (linked_begins hlinked) h hlinked.le_stop fun hlt => ?_
  obtain ⟨l, hl, hx⟩ := hlinked.covers (Nat.le_refl o) hlt
  exact ⟨_, List.mem_map_of_mem hl, hx⟩

theorem token_begins (ho : o ≤ ctx.source.size) (kind : TokenKind) :
    Begins o (Event.took (tokenEntryOf ctx kind o)).Examined := by
  have hlook : Begins (skipped ctx o).1
      (Touches ((tokenLook ctx.source.text (skipped ctx o).1 kind).map .saw)) := by
    have hin := tokenLook_inside (skipped_linked ho).stop_le kind
    cases kind with
    | indent => exact begins_nil
    | dedent => exact begins_nil
    | _ => exact begins_saw (hin _ (List.mem_singleton_self _)).start
  refine (skipped_begins ho hlook).congr fun x => ?_
  rw [examined_token]
  simp only [Touches, tokenLooks, ← List.map_append, List.mem_map, exists_exists_and_eq_and]
  exact Iff.rfl

/-- **Reads begin at the start.** -/
theorem Derives.begins (h : Derives ctx g o out tr) (ho : o ≤ ctx.source.size) :
    Begins o (Touches tr) := by
  -- two matches one behind the other
  have both : ∀ {g o m y tr tr'}, o ≤ ctx.source.size → Derives ctx g o (.ok m y) tr →
      Begins o (Touches tr) → Begins m (Touches tr') → Begins o (Touches (tr ++ tr')) :=
    fun ho hd h₁ h₂ => begins_append h₁ h₂ (hd.bounds ho rfl).1 (hd.touches_start ho)
  induction h with
  | @literal label text o out l hl _ =>
    subst hl
    have hin := Scan.literal_inside (skipped_linked ho).stop_le text (isWord text)
    exact skipped_begins ho (begins_saw hin.start)
  | @charClass label c o out l hl _ =>
    subst hl
    exact begins_saw (Scan.byte_inside ho c.accepts).start
  | anyByte hl _ =>
    subst hl
    exact begins_saw (Scan.byte_inside ho fun _ => true).start
  | ruleAtom _ ih => exact ih ho
  | tokenAtom _ ih => exact ih ho
  | star _ ih => exact ih ho
  | plus _ _ ih => exact ih ho
  | plus_fail _ ih => exact ih ho
  | option _ ih => exact ih ho
  | option_fail _ ih => exact ih ho
  | ahead _ ih => exact ih ho
  | ahead_fail _ ih => exact ih ho
  | notAhead _ ih => exact ih ho
  | notAhead_fail _ ih => exact ih ho
  | many_fail _ ih => exact ih ho
  | many_stay _ ih => exact ih ho
  | many_more hd _ _ ih ihs => exact both ho hd (ih ho) (ihs (hd.bounds ho rfl).2)
  | seq _ ih => exact ih ho
  | seq_nil => exact begins_nil
  | seq_fail _ ih => exact ih ho
  | seq_stop hd _ ih ihs => exact both ho hd (ih ho) (ihs (hd.bounds ho rfl).2)
  | seq_cons hd _ ih ihs => exact both ho hd (ih ho) (ihs (hd.bounds ho rfl).2)
  | choice _ ih => exact ih ho
  | choice_nil => exact begins_nil
  | choice_first _ ih => exact ih ho
  | choice_next _ _ ih ihs =>
    exact begins_append (ih ho) (ihs ho) (Nat.le_refl _) fun hlt => absurd hlt (Nat.lt_irrefl _)
  | name_rule _ _ ih => exact ih ho
  | name_token _ _ _ _ ih => exact ih ho
  | name_fail _ _ => exact begins_nil
  | @rule id rule o out tr res entry _ hd hentry _ ih =>
    change entry = ruleEntryOf ctx id rule o out tr at hentry
    refine (skipped_begins ho (ih (skipped_linked ho).stop_le)).congr fun x => ?_
    rw [hentry, touches_took]
    exact hd.examined_rule ho x
  | @token kind o res entry hentry _ =>
    change entry = tokenEntryOf ctx kind o at hentry
    rw [hentry]
    exact (token_begins ho kind).congr fun x => touches_took

/-! ### Nodes -/

/-- What stands below a node around a yield of watchful nodes. -/
theorem wrap_children_watchful (info : NodeInfo) (hy : ∀ n ∈ y.nodes, n.2.Watchful) :
    ∀ c ∈ (y.wrap ctx info).children, c.Watchful := by
  obtain ⟨info', children, heq, -, -, hchildren⟩ := y.wrap_eq ctx info
  rw [heq]
  intro c hc
  rcases hchildren c hc with ⟨key, hmem⟩ | ⟨bytes, o, hleaf⟩
  · exact hy _ hmem
  · have hnone := (operatorLeaf?_reads hleaf).2
    rw [operatorLeaf?_eq_some hleaf] at hnone ⊢
    exact .node (fun x hx => absurd hx (hnone x)) (by simp)

theorem wrap_licensed {info : NodeInfo} {g : Grammar} (h : info.Licensed g)
    (hy : ∀ n ∈ y.nodes, ∀ i ∈ n.2.nodes, i.Licensed g) :
    ∀ i ∈ (y.wrap ctx info).nodes, i.Licensed g := by
  obtain ⟨value, hvalue⟩ := y.wrap_info ctx info
  obtain ⟨info', children, heq, -, -, hchildren⟩ := y.wrap_eq ctx info
  rw [heq] at hvalue ⊢
  intro i hi
  rcases Subtree.mem_nodes_node.1 hi with rfl | ⟨c, hc, hi⟩
  · rw [show i = { info with value } from hvalue]
    exact h
  · rcases hchildren c hc with ⟨key, hmem⟩ | ⟨bytes, o, hleaf⟩
    · exact hy _ hmem i hi
    · rw [operatorLeaf?_eq_some hleaf, Subtree.nodes_node, List.flatMap_nil, List.mem_singleton] at hi
      subst hi
      intro id hid
      cases hid

/-- The nodes that an entry brings are watchful, and their rules can be asked for again. -/
def Entry.Watchful (ctx : Context) (e : Entry) : Prop :=
  ∀ n ∈ e.outcome.nodes, n.2.Watchful ∧ ∀ i ∈ n.2.nodes, i.Licensed ctx.grammar

theorem Entry.watchful_flat {e : Entry} (h : e.Watchful ctx) : e.flat.Watchful ctx := by
  intro n hn
  obtain ⟨m, hm, rfl⟩ := mem_nodes_flat.1 hn
  exact ⟨Subtree.watchful_flat.2 (h m hm).1, Subtree.licensed_flat.2 (h m hm).2⟩

theorem Entry.watchful_one {stop : Nat} {key : Key} {tree : Subtree} {reads : Footprint}
    (h : tree.Watchful) (h' : ∀ i ∈ tree.nodes, i.Licensed ctx.grammar) :
    Entry.Watchful ctx ⟨.ok stop (.one (.node key tree)), reads⟩ := by
  intro n hn
  rw [Outcome.nodes_one] at hn
  cases Array.mem_singleton.1 hn
  exact ⟨h, h'⟩

theorem token_watchful (ho : o ≤ ctx.source.size) (kind : TokenKind) :
    (tokenEntryOf ctx kind o).Watchful ctx := by
  have hbegins := token_begins ho kind
  have hshape := tokenResult_shape ctx 0 kind ⟨tokenSymbol ctx kind, o⟩
  unfold tokenEntryOf at hbegins ⊢
  refine Entry.watchful_flat ?_
  replace hbegins := hbegins.congr fun x => Event.examined_flat.symm
  generalize tokenResult ctx 0 kind ⟨tokenSymbol ctx kind, o⟩ = e at hshape hbegins ⊢
  cases hshape with
  | leaf info hreads _ hinvoked hrule _ =>
    refine Entry.watchful_one (.node ?_ (by simp)) ?_
    · rw [hinvoked]
      refine hbegins.congr fun x => ?_
      simp only [Event.Examined, Outcome.nodes_one, Array.mem_singleton, exists_eq_left,
        Footprint.not_mem_empty, false_or]
    · simp only [Subtree.nodes_node, List.flatMap_nil, List.mem_singleton, forall_eq]
      intro id hid
      cases hrule.symm.trans hid
  | bare stop => simp [Entry.Watchful, Outcome.nodes, Yield.nodes, Yield.empty, Yield.pieces]
  | fail => simp [Entry.Watchful, Outcome.nodes]

theorem rule_watchful (ho : o ≤ ctx.source.size) {id : Nat} {rule : Rule}
    (hrule : ctx.grammar.rules[id]? = some rule)
    (hd : Derives ctx (.expr rule.pattern) (skipped ctx o).1 out tr)
    (htr : ∀ e, .took e ∈ tr → e.Watchful ctx) : (ruleEntryOf ctx id rule o out tr).Watchful ctx := by
  have hstart := (skipped_linked ho).stop_le
  have hbegins := skipped_begins ho (hd.begins hstart)
  replace hbegins : Begins o (Event.took (ruleEntryOf ctx id rule o out tr)).Examined :=
    hbegins.congr (hd.examined_rule ho)
  rw [ruleEntryOf_eq] at hbegins ⊢
  refine Entry.watchful_flat ?_
  replace hbegins := hbegins.congr fun x => Event.examined_flat.symm
  cases out with
  | fail => simp [ruleResult, Entry.Watchful, Outcome.nodes]
  | ok stop y =>
    have hkept : ∀ n ∈ y.nodes, n.2.Watchful ∧ ∀ i ∈ n.2.nodes, i.Licensed ctx.grammar := by
      intro n hn
      obtain ⟨e, he, hmem⟩ := hd.nodes_took (show n ∈ (Outcome.ok stop y).nodes from hn)
      exact htr e he n hmem
    by_cases hfragment : rule.isFragment = true
    · rw [ruleResult_fragment hfragment]
      exact hkept
    · have hfragment : rule.isFragment = false := by simpa using hfragment
      rw [ruleResult_node hfragment] at hbegins ⊢
      refine Entry.watchful_one (.of ?_ (wrap_children_watchful _ fun n hn => (hkept n hn).1))
        (wrap_licensed ?_ fun n hn => (hkept n hn).2)
      · obtain ⟨value, hvalue⟩ := y.wrap_info ctx (ruleInfo ctx 0 rule ⟨id, o⟩ (skipped ctx o).1 stop
          ((ruleFrame ctx o tr).settle y))
        rw [hvalue]
        refine hbegins.congr fun x => ?_
        simp only [Event.Examined, Outcome.nodes_one, Array.mem_singleton, exists_eq_left,
          Footprint.not_mem_empty, false_or]
      · intro id' hid'
        cases Option.some.inj (show some id = some id' from hid')
        exact ⟨rule, hrule, hfragment⟩

/-- Everything that is taken over brings watchful nodes. -/
theorem Derives.watchful (h : Derives ctx g o out tr) (ho : o ≤ ctx.source.size) :
    ∀ e, .took e ∈ tr → e.Watchful ctx :=
  h.entries_induct (fun kind _ ho => token_watchful ho kind)
    (fun _ _ _ _ _ ho hrule hd htr => rule_watchful ho hrule hd htr) ho

/-- A tree that was matched in a text of a given size. -/
structure Wellmade (g : Grammar) (size : Nat) (t : Subtree) : Prop where
  nested : t.Nested
  orderly : t.Orderly
  watchful : t.Watchful
  licensed : ∀ i ∈ t.nodes, i.Licensed g
  examined_le : ∀ x, t.Examined x → x ≤ size
  sees : ∀ x, t.info.invoked ≤ x → x < t.info.stop → t.Sees x

/-- A node that is yielded is well made. -/
theorem Derives.wellmade {key : Key} {tree : Subtree}
    (h : Derives ctx g o (.ok stop y) tr) (ho : o ≤ ctx.source.size) (hy : (key, tree) ∈ y.nodes) :
    Wellmade ctx.grammar ctx.source.size tree := by
  obtain ⟨e, he, hmem⟩ := h.nodes_took (show (key, tree) ∈ (Outcome.ok stop y).nodes from hy)
  have hpiece := Yield.mem_nodes.1 hy
  obtain ⟨-, -, -, hsees⟩ := (h.laid ho rfl).within _ hpiece
  obtain ⟨hwatchful, hlicensed⟩ := h.watchful ho e he _ hmem
  exact ⟨(h.lined ho rfl).nested key tree (Array.mem_toList_iff.2 hpiece),
    (h.proper ho e he).nodes _ hmem, hwatchful, hlicensed,
    fun x hx => h.examined_le ho _ he x (.inr ⟨_, hmem, hx⟩), hsees⟩

/-- What a rule that makes nodes gives is one node, which says where it was asked for and where it ends;
nothing is charged to the rule around it. -/
theorem Derives.node_of_rule {id : Nat} {rule : Rule} (h : Derives ctx (.rule id) o (.ok stop y) tr)
    (hrule : ctx.grammar.rules[id]? = some rule) (hfragment : rule.isFragment = false) :
    ∃ tree, y = .one (.node ⟨id, o⟩ tree) ∧ tr = [.took ⟨.ok stop y, .empty⟩] ∧ tree.flat = tree
      ∧ tree.info.rule = some id ∧ tree.info.invoked = o ∧ tree.info.stop = stop := by
  generalize hout : Outcome.ok stop y = res at h
  cases h with
  | @rule _ rule' _ out tr _ entry hrule' hd hentry hres =>
    cases hrule.symm.trans hrule'
    subst hentry hres
    cases out with
    | fail => cases hout
    | ok stop' y' =>
      rw [ruleResult_node hfragment] at hout ⊢
      cases hout
      refine ⟨_, rfl, rfl, Subtree.flat_flat _, ?_⟩
      obtain ⟨value, hvalue⟩ := y'.wrap_info ctx (ruleInfo ctx 0 rule ⟨id, o⟩ (skipped ctx o).1 stop
        ((Frame.after {} ((skipped ctx o).2.map .saw ++ tr)).settle y'))
      rw [Subtree.info_flat, hvalue]
      exact ⟨rfl, rfl, rfl⟩

/-- In the tree of a document all nodes below the root are watchful; the root itself may stand around
what the start has yielded only later on. -/
theorem Accepts.watchful {start : Bytes} {root : Subtree} {reads : Footprint}
    (h : Accepts ctx start root reads) :
    (∀ c ∈ root.children, c.Watchful) ∧ ∀ i ∈ root.nodes, i.Licensed ctx.grammar := by
  obtain ⟨stop, y, tr, hd, -, rfl, -⟩ := h
  have hmade : ∀ n ∈ y.nodes, Wellmade ctx.grammar ctx.source.size n.2 :=
    fun n hn => hd.wellmade (Nat.zero_le _) (show (n.1, n.2) ∈ y.nodes from hn)
  have hroot : (∀ c ∈ (Parser.rootOf ctx stop y).children, c.Watchful)
      ∧ ∀ i ∈ (Parser.rootOf ctx stop y).nodes, i.Licensed ctx.grammar := by
    rcases rootOf_eq ctx stop y with ⟨key, tree, rfl, hroot⟩ | hroot
    · rw [hroot]
      have htree := hmade (key, tree) (by simp [Yield.nodes, Yield.pieces, Piece.node?])
      exact ⟨htree.watchful.children, htree.licensed⟩
    · rw [hroot]
      refine ⟨wrap_children_watchful _ fun n hn => (hmade n hn).watchful,
        wrap_licensed (fun id hid => ?_) fun n hn => (hmade n hn).licensed⟩
      cases (show none = some id from hid)
  refine ⟨fun c hc => ?_, Subtree.licensed_flat.2 hroot.2⟩
  rw [Subtree.children_flat] at hc
  obtain ⟨c', hc', rfl⟩ := List.mem_map.1 hc
  exact Subtree.watchful_flat.2 (hroot.1 c' hc')

end Parse

namespace Parser

open Parse

variable {p : Parser} {source : Source} {id o stop depth : Nat} {rule : Rule} {log : Log} {tree : Subtree}

/-- What a region gives is what its rule derives. -/
theorem region_derives (hrule : p.grammar.rules[id]? = some rule) (hfragment : rule.isFragment = false)
    (ho : o ≤ source.size) (h : (p.region source id o stop depth log).1 = .ok (some tree)) :
    ∃ tr, Derives ⟨p.grammar, source⟩ (.rule id) o (.ok stop (.one (.node ⟨id, o⟩ tree.flat))) tr := by
  obtain ⟨key, s, hinvoke⟩ := region_eq_some.1 h
  have hid : id < p.grammar.rules.size := by
    by_contra hlt
    rw [Array.getElem?_eq_none (by omega)] at hrule
    cases hrule
  have htracks := invoke_tracks ⟨p.grammar, source⟩ (p.maxDepth - (depth - 1)) (depth - 1) id o hid ho
  obtain ⟨-, tr, hd, -⟩ := (htracks {} (sound_empty _)).of_run hinvoke
  obtain ⟨tree', htree', -⟩ := hd.node_of_rule hrule hfragment
  cases htree'
  exact ⟨tr, hd⟩

/-- What a region gives is well made, starts where it is asked for and ends where it has to. -/
theorem region_made (hrule : p.grammar.rules[id]? = some rule) (hfragment : rule.isFragment = false)
    (ho : o ≤ source.size) (h : (p.region source id o stop depth log).1 = .ok (some tree)) :
    Wellmade p.grammar source.size tree ∧ tree.info.invoked = o ∧ tree.info.stop = stop
      ∧ stop ≤ source.size := by
  obtain ⟨tr, hd⟩ := region_derives hrule hfragment ho h
  obtain ⟨tree', htree', -, -, -, hinvoked, hstop⟩ := hd.node_of_rule hrule hfragment
  cases htree'
  have hmade := hd.wellmade ho (show (⟨id, o⟩, tree.flat) ∈ _ by
    simp [Yield.nodes, Yield.pieces, Piece.node?])
  have hbounds := hd.bounds ho rfl
  rw [Subtree.info_flat] at hinvoked hstop
  refine ⟨⟨?_, ?_, ?_, ?_, ?_, ?_⟩, hinvoked, hstop, hbounds.2⟩
  · exact Subtree.nested_flat.1 hmade.nested
  · exact (Subtree.orderly_flat _).1 hmade.orderly
  · exact Subtree.watchful_flat.1 hmade.watchful
  · exact Subtree.licensed_flat.1 hmade.licensed
  · exact fun x hx => hmade.examined_le x ((Subtree.examined_flat _ _).2 hx)
  · intro x h₁ h₂
    refine Subtree.sees_flat.1 (hmade.sees x ?_ ?_)
    · rw [Subtree.info_flat]
      exact h₁
    · rw [Subtree.info_flat]
      exact h₂

end Parser

end Packrat
