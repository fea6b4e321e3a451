import Packrat.Proofs.Document.Reparse

/-!
Trees that are as good as new.

After any number of edits, patched or not, the tree of a document that is not stale agrees with the tree
of a parse of its text, unless this parse goes too deep (`Document.performAll_agrees`).  What is kept by
every step is that the tree is derived (`Tree.Derived`), which says nothing about how it was made.

One thing must not happen on the way.  An edit may delete the whole of a node, from the place where its
rule was asked for up to its end, and the rule may match nothing there (`Document.Empties`).  The node is
then kept without extent, where a parse would have left it out or tried something else
(`Document.performAll_optionRun`).  An edit that puts in text never does this
(`Document.not_empties_of_insert`).
-/

namespace Packrat

namespace Document

open Parse Shape

/-! ### Nodes that are deleted -/

/-- An edit deletes all of a node, up to its end and from the place where its rule was asked for. -/
structure Erases (e : Edit) (s : Slot) : Prop where
  newText : e.newText = []
  invoked : s.info.invoked = e.offset
  stop : s.info.stop = e.stop

/-- An edit deletes a node that it may be patched into, and the rule of the node matches nothing in its
place. -/
def Empties (d : Document) (e : Edit) : Prop :=
  ∃ tree id s rule replacement log, d.tree = some tree
    ∧ id ∈ (candidates tree (e.clamp d.text.size)).1 ∧ tree.node? id = some s
    ∧ Erases (e.clamp d.text.size) s ∧ s.info.rule = some rule
    ∧ (d.parser.region (d.scanned.edit (e.clamp d.text.size)) rule s.info.invoked
        (Offset.move s.info.stop (e.clamp d.text.size).delta) s.info.depth log).1 = .ok (some replacement)

theorem not_empties_of_insert {d : Document} {e : Edit} (h : e.newText ≠ []) : ¬d.Empties e :=
  fun ⟨_, _, _, _, _, _, _, _, _, herases, _⟩ => h herases.newText

/-- A node that an edit does not delete has an extent after it. -/
theorem invoked_lt_of_not_erases {t : Text} {e : Edit} {s : Slot} (hfits : e.Fits t)
    (hencloses : encloses s e = true) (hlt : e.offset < s.info.stop) (hle : s.info.stop ≤ t.size)
    (h : ¬Erases e s) : s.info.invoked < Offset.move s.info.stop e.delta := by
  obtain ⟨-, hinvoked, hstop⟩ := encloses_iff.1 hencloses
  rw [← Offset.shift_of_behind ⟨hlt, hstop⟩, hfits.shift_behind (by omega) hlt (hfits.stop_eq ▸ hstop)]
  by_contra hge
  rw [hfits.stop_eq] at hstop
  refine h ⟨List.eq_nil_of_length_eq_zero ?_, ?_, ?_⟩
  · change e.newLength = 0
    omega
  · omega
  · rw [hfits.stop_eq]
    omega

/-! ### Documents -/

/-- The tree of the document, if there is one and it is not stale, is derived. -/
def Derived (d : Document) : Prop :=
  ∀ tree, d.tree = some tree → d.stale = false → tree.Derived d.parser.grammar

variable {d d' : Document} {op : Op}

/-- Every step that does not delete a node keeps the tree derived. -/
theorem Step.derived (h : Step d op d') (hcomments : ∀ c ∈ d.parser.grammar.comments, c.FitsWindow)
    (hstep : d.InStep) (hfirm : d.Firm) (hd : d.Derived) (hsize : d.text.size < Text.maxSize)
    (hsize' : d'.text.size < Text.maxSize) (hkeeps : ∀ e, op = .edit e → ¬d.Empties e) : d'.Derived := by
  cases h with
  | parsed htree =>
    rintro _ ⟨⟩ -
    exact d.parser.derived_of_parse htree
  | reparsed htree =>
    rintro _ ⟨⟩ -
    exact d.parser.derived_of_parse htree
  | refused _ =>
    intro tree htree
    cases htree
  | kept _ _ =>
    -- a tree that is kept is stale
    intro tree htree hstale
    change _ = some tree at htree
    subst htree
    cases hstale
  | @patched e tree id s replacement log stats htree hpatchable hstale hid hnode hencloses hregion =>
    rintro _ ⟨⟩ -
    obtain ⟨-, sh, hfirm⟩ := hfirm tree htree
    have hsource := hstep.tree tree htree hstale
    have hfits : (e.clamp d.text.size).Fits tree.source.text := by
      rw [hsource]
      exact Edit.clamp_fits hsize hsize'
    rw [(candidates_sameView tree _).node?_eq] at hnode
    obtain ⟨⟨rule, hrule⟩, -⟩ := encloses_iff.1 hencloses
    rw [hrule, Option.getD_some] at hregion
    -- the node is not deleted
    have hlt : s.info.invoked < Offset.move s.info.stop (e.clamp d.text.size).delta := by
      obtain ⟨ls, sub, rfl, rfl, ht, -⟩ := targeted_of_candidates hfirm hfits hid hnode hencloses
      have hinfo := Tree.infoAt_of_node? hnode
      have hoffset := hfirm.offset_lt_stop ht
      have hstop := hfirm.stop_le_size (mem_ids_plug.2 (.inl sub.id_mem_ids))
      rw [hinfo] at hoffset hstop
      exact invoked_lt_of_not_erases hfits hencloses hoffset hstop fun herases => hkeeps e rfl
        ⟨tree, sub.id, s, rule, replacement, log, htree, hid, hnode, herases, hrule, hregion⟩
    rw [(hstep.patchable hpatchable).2.2, ← hsource] at hregion
    exact derived_graft hcomments hfirm (hd tree htree hstale) hfits hid hnode hencloses hrule hregion hlt
  | invalidated => exact hd
  | emptied =>
    intro tree htree
    cases htree
  | @looked id =>
    intro tree htree hstale
    obtain ⟨tree, hsome, rfl⟩ := Option.map_eq_some_iff.1 htree
    obtain ⟨-, sh, hfirm⟩ := hfirm tree hsome
    exact (hd tree hsome hstale).sameView (tree.catchUp_sameView id) hfirm.arranged

/-- After a run in which no edit deletes a node the tree is derived. -/
theorem derived_performAll {p : Parser} (hcomments : ∀ c ∈ p.grammar.comments, c.FitsWindow)
    {ops : List Op} (hshort : Short #[] ops) (log : Log)
    (hkeeps : ∀ before e after, ops.flatMap Op.parts = before ++ .edit e :: after →
      ¬((ofParser p).performAll before log).1.Empties e) :
    ((ofParser p).performAll ops log).1.Derived := by
  refine (performAll_induct_of
    (P := fun d => d.parser = p ∧ d.InStep ∧ d.Firm ∧ d.Derived)
    (Q := fun d op => ∀ e, op = .edit e → ¬d.Empties e)
    (fun ⟨hparser, hstep, hfirm, hd⟩ hkeeps hsize hsize' h => ?_)
    ⟨rfl, inStep_ofParser p, fun _ h => (nomatch h), fun _ h => (nomatch h)⟩
    (show (0 : Nat) < Text.maxSize by decide) hshort log ?_).2.2.2
  · exact ⟨h.parser_eq.trans hparser, h.inStep hstep hsize hsize', h.firm hstep hfirm hsize hsize',
      h.derived (hparser ▸ hcomments) hstep hfirm hd hsize hsize' hkeeps⟩
  · rintro before op after heq e rfl
    exact hkeeps before e after heq

/-- **A tree that is not stale agrees with a parse of the text**, whatever has been done to the document.
The openings of the comments have to fit into the window in which they are looked for.  After any run of
operations, none of whose texts is too long for its offsets and none of whose edits deletes a node whose
rule matches nothing then, a parse of the text that the document has, under the same limit, goes too deep
or gives a tree that agrees with that of the document: of the same form, with the same types, values,
rules and offsets, and the same offsets examined by each node and by the document. -/
theorem performAll_agrees (p : Parser) (hcomments : ∀ c ∈ p.grammar.comments, c.FitsWindow)
    {ops : List Op} (hshort : Short #[] ops) (log : Log)
    (hkeeps : ∀ before e after, ops.flatMap Op.parts = before ++ .edit e :: after →
      ¬((ofParser p).performAll before log).1.Empties e) {tree : Tree}
    (htree : ((ofParser p).performAll ops log).1.tree = some tree)
    (hstale : ((ofParser p).performAll ops log).1.stale = false) (log' : Log) :
    (∃ name depth, (p.parse (.ofText ((ofParser p).performAll ops log).1.text) log').1
        = .error (.exhausted p.maxDepth name depth))
      ∨ ∃ tree', (p.parse (.ofText ((ofParser p).performAll ops log).1.text) log').1 = .ok tree'
        ∧ tree.asSubtree.Agrees tree'.asSubtree
        ∧ ∀ x, tree.documentReads.mem x ↔ tree'.documentReads.mem x := by
  obtain ⟨root, reads, haccepts, hagrees, hreads⟩ :=
    derived_performAll hcomments hshort log hkeeps tree htree hstale
  rw [(inStep_performAll p hshort log).tree tree htree hstale, parser_performAll] at haccepts
  rcases p.parse_of_accepts haccepts log' with hdeep | ⟨tree', htree', rfl, rfl⟩
  · exact .inl hdeep
  · exact .inr ⟨tree', htree', hagrees.of_flat, hreads⟩

/-- The second sign of a pair is replaced twice, the second time by a line break and a sign. -/
def pairTwice : List Op := pairRun ++ [.edit ⟨2, 1, Bytes.ascii "\n+"⟩]

theorem short_pairTwice : Short #[] pairTwice := by
  unfold Short
  decide +kernel

theorem not_empties_pairTwice (before : List Op) (e : Edit) (after : List Op)
    (h : pairTwice.flatMap Op.parts = before ++ .edit e :: after) :
    ¬((ofParser pairParser).performAll before #[]).1.Empties e := by
  have hmem : Op.edit e ∈ pairTwice.flatMap Op.parts := by simp [h]
  refine not_empties_of_insert ?_
  rcases (by simpa [pairTwice, pairRun, Op.parts] using hmem :
    e = ⟨2, 7, Bytes.ascii "-"⟩ ∨ e = ⟨2, 1, Bytes.ascii "\n+"⟩) with rfl | rfl
  · decide
  · decide

theorem performAll_pairTwice :
    ((ofParser pairParser).performAll pairTwice #[]).1.stats = ⟨3, 2, 0⟩
      ∧ ((ofParser pairParser).performAll pairTwice #[]).1.stale = false
      ∧ ((ofParser pairParser).performAll pairTwice #[]).1.tree.isSome = true
      ∧ ((ofParser pairParser).performAll pairTwice #[]).1.text = (Bytes.ascii "+\n\n+").toArray
      ∧ (pairParser.parse (.ofText (Bytes.ascii "+\n\n+").toArray) #[]).1.isOk = true := by
  cbv

/-- The tree of a pair that was patched twice agrees with that of a parse. -/
theorem performAll_pairTwice_agrees :
    ((ofParser pairParser).performAll pairTwice #[]).1.stats.patched = 2
      ∧ ∃ tree tree', ((ofParser pairParser).performAll pairTwice #[]).1.tree = some tree
        ∧ (pairParser.parse (.ofText (Bytes.ascii "+\n\n+").toArray) #[]).1 = .ok tree'
        ∧ tree.asSubtree.Agrees tree'.asSubtree
        ∧ ∀ x, tree.documentReads.mem x ↔ tree'.documentReads.mem x := by
  obtain ⟨hstats, hstale, hsome, htext, hok⟩ := performAll_pairTwice
  obtain ⟨tree, htree⟩ := Option.isSome_iff_exists.1 hsome
  refine ⟨by rw [hstats], tree, ?_⟩
  have hagrees := performAll_agrees pairParser Comment.fitsWindow_of_mem_defaults short_pairTwice #[]
    not_empties_pairTwice htree hstale #[]
  rw [htext] at hagrees
  rcases hagrees with ⟨name, depth, hdeep⟩ | ⟨tree', htree', hsame, hreads⟩
  · rw [hdeep] at hok
    cases hok
  · exact ⟨tree', htree, htree', hsame, hreads⟩

/-- Signs between two strokes: `s <- b a* b`, where `a <- '+'?` may match nothing and `b <- '-'`. -/
def optionGrammar : Grammar where
  name := Bytes.ascii "option"
  rules := #[
    { name := Bytes.ascii "s", nodeType := Bytes.ascii "s", isFragment := false, description := []
      pattern := .seq none [.atom none (.rule (Bytes.ascii "b")),
        .apply none .star (.atom none (.rule (Bytes.ascii "a"))), .atom none (.rule (Bytes.ascii "b"))] },
    { name := Bytes.ascii "a", nodeType := Bytes.ascii "a", isFragment := false, description := []
      pattern := .apply none .option (.atom none (.literal (Bytes.ascii "+"))) },
    { name := Bytes.ascii "b", nodeType := Bytes.ascii "b", isFragment := false, description := []
      pattern := .atom none (.literal (Bytes.ascii "-")) }]

def optionParser : Parser where
  grammar := optionGrammar
  maxDepth := 2
  leftRecursive_eq := by decide +kernel

/-- The only sign is deleted. -/
def optionRun : List Op := [.parse (Bytes.ascii "-+-").toArray, .edit ⟨1, 1, []⟩]

/-- The edit is patched, and the tree, which is not stale, keeps an empty node for the sign; the parse
of the same text has no such node. -/
theorem performAll_optionRun :
    ((ofParser optionParser).performAll optionRun #[]).1.stale = false
      ∧ ((ofParser optionParser).performAll optionRun #[]).1.text = (Bytes.ascii "--").toArray
      ∧ (((ofParser optionParser).performAll optionRun #[]).1.tree.map fun t =>
          t.preorder.map fun id => ((t.infoAt id).type, (t.infoAt id).start, (t.infoAt id).stop))
        = some [(Bytes.ascii "s", 0, 2), (Bytes.ascii "b", 0, 1), (Bytes.ascii "a", 1, 1),
          (Bytes.ascii "b", 1, 2)]
      ∧ ((optionParser.parse (.ofText (Bytes.ascii "--").toArray) #[]).1.toOption.map fun t =>
          t.preorder.map fun id => ((t.infoAt id).type, (t.infoAt id).start, (t.infoAt id).stop))
        = some [(Bytes.ascii "s", 0, 2), (Bytes.ascii "b", 0, 1), (Bytes.ascii "b", 1, 2)] := by
  cbv

end Document

end Packrat
