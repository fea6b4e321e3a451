import Packrat.Proofs.Document.Spans
import Packrat.Proofs.Tree.Derived

/-!
A patch and a parse of the edited text.

A patch keeps a tree derived if the new node has an extent (`Document.derived_graft`); so a patched tree is
that of the one derivation there is, and a parse of the edited text gives a tree that agrees with it, or
goes too deep (`Document.tryPatch_agrees`).

It can go too deep: the depth of a node is that of the match that made it first, and what is remembered is
taken over at any depth.  An edit may do away with the first match, and the next one may be asked for
inside of more rules (`Document.performAll_deepRun`).  And a node without extent may be one that a parse
would have left out, which is why the new node has to have one.
-/

namespace Packrat

/-! ### Parses -/

namespace Parser

open Parse

theorem accepts_of_parse {p : Parser} {source : Source} {log : Log} {tree : Tree}
    (h : (p.parse source log).1 = .ok tree) :
    Accepts ⟨p.grammar, source⟩ p.grammar.start tree.asSubtree.flat tree.documentReads := by
  obtain ⟨root, htree, haccepts⟩ := p.parse_accepts h
  have hroot : tree.asSubtree = root := by rw [htree, Tree.asSubtree_ofSubtree]
  rw [hroot]
  exact haccepts

/-- The tree of a parse is derived. -/
theorem derived_of_parse (p : Parser) {source : Source} {log : Log} {tree : Tree}
    (h : (p.parse source log).1 = .ok tree) : tree.Derived p.grammar := by
  refine ⟨_, _, ?_, tree.asSubtree.agrees_flat, fun _ => .rfl⟩
  rw [p.source_of_parse h]
  exact accepts_of_parse h

/-- A document that is accepted has a parse, unless this goes too deep. -/
theorem parse_of_accepts (p : Parser) {source : Source} {root : Subtree} {reads : Footprint}
    (h : Accepts ⟨p.grammar, source⟩ p.grammar.start root reads) (log : Log) :
    (∃ rule depth, (p.parse source log).1 = .error (.exhausted p.maxDepth rule depth))
      ∨ ∃ tree, (p.parse source log).1 = .ok tree ∧ tree.asSubtree.flat = root
        ∧ tree.documentReads = reads := by
  have hstart : p.grammar.declares p.grammar.start = true ∨ Grammar.isToken p.grammar.start = true := by
    obtain ⟨stop, y, tr, hd, -⟩ := h
    cases hd with
    | name_rule hfind _ => exact .inl (by rw [Grammar.declares, hfind]; rfl)
    | name_token _ hkind hreserved _ =>
      refine .inr ?_
      rw [Grammar.isToken, hkind, Option.any_some, hreserved]
      rfl
  have hjudged := document_ends ⟨p.grammar, source⟩ p.maxDepth p.grammar.start
  have hresult := p.parse_fst source log hstart
  unfold Ends at hjudged
  cases hdoc : document ⟨p.grammar, source⟩ p.maxDepth p.grammar.start {} with
  | error e s =>
    rw [hdoc] at hjudged hresult
    obtain ⟨rule, depth, rfl⟩ := hjudged
    exact .inl ⟨rule, depth, hresult⟩
  | ok verdict s =>
    rw [hdoc] at hjudged hresult
    cases verdict with
    | failed => exact absurd ⟨root, reads, h⟩ hjudged
    | trailing o => exact absurd ⟨root, reads, h⟩ hjudged
    | matched tree reads' =>
      obtain ⟨hroot, hreads⟩ := Accepts.unique hjudged h
      refine .inr ⟨_, hresult, ?_, ?_⟩
      · rw [Tree.asSubtree_ofSubtree, hroot]
      · rw [Tree.documentReads_ofSubtree, hreads]

end Parser

namespace Document

open Parse Shape

/-- If an edit was patched, one of the candidates was matched anew. -/
theorem tryPatch_eq_true {d : Document} {tree patched : Tree} {e : Edit} {log : Log}
    (h : (d.tryPatch tree e log).1 = (true, patched)) :
    ∃ id s rule replacement log', id ∈ (candidates tree e).1 ∧ tree.node? id = some s
      ∧ encloses s e = true ∧ s.info.rule = some rule
      ∧ (d.parser.region d.scanned rule s.info.invoked (Offset.move s.info.stop e.delta) s.info.depth
          log').1 = .ok (some replacement)
      ∧ patched = (candidates tree e).2.graft id replacement e := by
  obtain hkept | ⟨tree', log₁, hfrom, hdone⟩ := d.tryPatch_fst tree e log
  · rw [hkept] at h
    cases h
  · rw [hdone] at h
    cases h
    obtain ⟨id, hid, s, replacement, log₂, hnode, hencloses, hregion, htree'⟩ := patchFrom_eq_some hfrom
    obtain ⟨⟨rule, hrule⟩, -⟩ := encloses_iff.1 hencloses
    rw [(candidates_sameView tree e).node?_eq] at hnode
    rw [hrule, Option.getD_some] at hregion
    exact ⟨id, s, rule, replacement, log₂, hid, hnode, hencloses, hrule, hregion, htree'⟩

/-- A derived tree stays derived if an edit is patched into it, unless nothing is left of the node that
is matched anew. -/
theorem derived_graft {p : Parser} (hcomments : ∀ c ∈ p.grammar.comments, c.FitsWindow) {tree : Tree}
    {sh : Shape} {e : Edit} {id rule depth : Nat} {s : Slot} {replacement : Subtree} {log : Log}
    (h : tree.Firm p.grammar sh) (hderived : tree.Derived p.grammar) (hfits : e.Fits tree.source.text)
    (hid : id ∈ (candidates tree e).1) (hnode : tree.node? id = some s) (hencloses : encloses s e = true)
    (hrule : s.info.rule = some rule)
    (hregion : (p.region (tree.source.edit e) rule s.info.invoked (Offset.move s.info.stop e.delta)
      depth log).1 = .ok (some replacement))
    (hlt : s.info.invoked < Offset.move s.info.stop e.delta) :
    ((candidates tree e).2.graft id replacement e).Derived p.grammar := by
  obtain ⟨ls, sub, rfl, rfl, ht, x, hx, hlast, hread⟩ :=
    targeted_of_candidates h hfits hid hnode hencloses
  have hinfo := Tree.infoAt_of_node? hnode
  have hcarry := move_stop_eq h ht hnode hencloses
  obtain ⟨root, reads, haccepts, hagrees, hreads⟩ := hderived
  rw [h.arranged.asSubtree_eq] at hagrees
  -- the looks that were taken to find the node do not matter
  have hview := candidates_sameView tree e
  have hlooked : (candidates tree e).2.infoAt sub.id = s.info := by rw [hview.infoAt_eq, hinfo]
  have hexamined : ¬e.Misses ((candidates tree e).2.subtree sub).Examined := by
    rw [hview.subtree_eq]
    exact fun hmisses => hmisses x hx hlast hread
  rw [hcarry, ← hview.source] at hregion
  rw [hcarry] at hlt
  rw [← hlooked] at hregion hrule hlt
  rw [← hview.source] at haccepts
  unfold Tree.Derived
  rw [Tree.source_graft]
  refine (h.sameView hview).accepts_graft (ht.sameView hview) hcomments hexamined hrule hregion hlt
    haccepts ?_ fun x => ?_
  · rw [hview.subtree_eq]
    exact hagrees
  · rw [hview.documentReads]
    exact hreads x

/-- What is patched into the tree of a fresh parse ends where the old node does, carried along; and if
it has an extent, the edited text is accepted with a tree that agrees with the patched one. -/
theorem accepts_of_patch (p : Parser) (hcomments : ∀ c ∈ p.grammar.comments, c.FitsWindow) {text : Text}
    {e : Edit} (hfits : e.Fits text) {tree : Tree} {log log' : Log}
    (hparse : (p.parse (.ofText text) log).1 = .ok tree) {id rule depth : Nat} {s : Slot}
    {replacement : Subtree} (hid : id ∈ (candidates tree e).1) (hnode : tree.node? id = some s)
    (hencloses : encloses s e = true) (hrule : s.info.rule = some rule)
    (hregion : (p.region (.ofText (e.applyTo text)) rule s.info.invoked (Offset.move s.info.stop e.delta)
      depth log').1 = .ok (some replacement)) :
    replacement.info.stop = Offset.move s.info.stop e.delta
      ∧ (s.info.invoked < replacement.info.stop → ∃ root' reads',
          Accepts ⟨p.grammar, .ofText (e.applyTo text)⟩ p.grammar.start root' reads'
          ∧ ((candidates tree e).2.graft id replacement e).asSubtree.Agrees root'
          ∧ ∀ x, ((candidates tree e).2.graft id replacement e).documentReads.mem x ↔ reads'.mem x) := by
  have hsource := p.source_of_parse hparse
  obtain ⟨-, sh, hfirm⟩ := firm_of_parse hfits.size_lt hparse
  have hfits' : e.Fits tree.source.text := by
    rw [hsource]
    exact hfits
  have hedited : tree.source.edit e = .ofText (e.applyTo text) := by
    rw [hsource, Source.edit_ofText hfits]
  obtain ⟨ls, sub, rfl, rfl, -⟩ := targeted_of_candidates hfirm hfits' hid hnode hencloses
  obtain ⟨r, hr, hfragment⟩ :=
    licensed_of_node? hfirm (mem_ids_plug.2 (.inl sub.id_mem_ids)) hnode hrule
  have hstart : s.info.invoked ≤ (e.applyTo text).size :=
    Nat.le_trans (encloses_iff.1 hencloses).2.1 hfits.offset_le_size
  have hstop := (p.region_made hr hfragment hstart hregion).2.2.1
  refine ⟨hstop, fun hlt => ?_⟩
  rw [hstop] at hlt
  rw [← hedited] at hregion
  obtain ⟨root, reads, haccepts, hrest⟩ := derived_graft hcomments hfirm (p.derived_of_parse hparse)
    hfits' hid hnode hencloses hrule hregion hlt
  rw [Tree.source_graft, (candidates_sameView tree e).source, hedited] at haccepts
  exact ⟨root, reads, haccepts, hrest⟩

/-- **A patch agrees with a parse of the edited text**, as long as the openings of the comments fit into
the window in which they are looked for. If an edit that fits the text is patched into the tree of a fresh
parse, a node is matched anew; and if the new match ends behind the place where the rule was asked for,
a parse of the edited text, under the same limit, goes too deep or gives a tree that agrees with the
patched one: of the same form, with the same types, values, rules and offsets, and the same offsets
examined by each node and by the document. -/
theorem tryPatch_agrees (p : Parser) (hcomments : ∀ c ∈ p.grammar.comments, c.FitsWindow) {text : Text}
    {e : Edit} (hfits : e.Fits text) {tree : Tree} {log : Log}
    (hparse : (p.parse (.ofText text) log).1 = .ok tree) {d : Document} (hparser : d.parser = p)
    (hscanned : d.scanned = (Source.ofText text).edit e) {patched : Tree} {log' : Log}
    (hpatch : (d.tryPatch tree e log').1 = (true, patched)) :
    ∃ id s rule replacement log₁, id ∈ (candidates tree e).1 ∧ tree.node? id = some s
      ∧ s.info.rule = some rule
      ∧ (p.region (.ofText (e.applyTo text)) rule s.info.invoked (Offset.move s.info.stop e.delta)
          s.info.depth log₁).1 = .ok (some replacement)
      ∧ replacement.info.stop = Offset.move s.info.stop e.delta
      ∧ patched = (candidates tree e).2.graft id replacement e
      ∧ (s.info.invoked < replacement.info.stop → ∀ log₂,
          (∃ name depth, (p.parse (.ofText (e.applyTo text)) log₂).1
              = .error (.exhausted p.maxDepth name depth))
            ∨ ∃ tree', (p.parse (.ofText (e.applyTo text)) log₂).1 = .ok tree'
              ∧ patched.asSubtree.Agrees tree'.asSubtree
              ∧ ∀ x, patched.documentReads.mem x ↔ tree'.documentReads.mem x) := by
  obtain ⟨id, s, rule, replacement, log₁, hid, hnode, hencloses, hrule, hregion, rfl⟩ :=
    tryPatch_eq_true hpatch
  rw [hparser, hscanned, Source.edit_ofText hfits] at hregion
  obtain ⟨hend, haccepted⟩ :=
    accepts_of_patch p hcomments hfits hparse hid hnode hencloses hrule hregion
  refine ⟨id, s, rule, replacement, log₁, hid, hnode, hrule, hregion, hend, rfl, fun hlt log₂ => ?_⟩
  obtain ⟨root', reads', haccepts, hagrees, hreads⟩ := haccepted hlt
  rcases p.parse_of_accepts haccepts log₂ with hdeep | ⟨tree', htree', rfl, rfl⟩
  · exact .inl hdeep
  · exact .inr ⟨tree', htree', hagrees.of_flat, hreads⟩

/-- The second sign of a pair is to be replaced. -/
def pairEdit : Edit := ⟨2, 1, Bytes.ascii "-"⟩

/-- A document whose scanner has seen the edit of the pair. -/
def pairEdited : Document :=
  { ofParser pairParser with scanned := (Source.ofText (Bytes.ascii "+\n+").toArray).edit pairEdit }

theorem parse_pair_tryPatch :
    (pairParser.parse (.ofText (Bytes.ascii "+\n+").toArray) #[]).1.toOption.map (fun tree =>
        ((pairEdited.tryPatch tree pairEdit #[]).1.1, (candidates tree pairEdit).1,
          (tree.node? 2).map fun s => (s.info.invoked, s.info.stop)))
      = some (true, [2], some (1, 3))
    ∧ (pairParser.parse (.ofText (Bytes.ascii "+\n-").toArray) #[]).1.isOk = true := by cbv

/-- A parse of the edited pair agrees with the patch. -/
theorem tryPatch_pair_agrees :
    ∃ tree patched tree', (pairParser.parse (.ofText (Bytes.ascii "+\n+").toArray) #[]).1 = .ok tree
      ∧ (pairEdited.tryPatch tree pairEdit #[]).1 = (true, patched)
      ∧ (pairParser.parse (.ofText (Bytes.ascii "+\n-").toArray) #[]).1 = .ok tree'
      ∧ patched.asSubtree.Agrees tree'.asSubtree
      ∧ ∀ x, patched.documentReads.mem x ↔ tree'.documentReads.mem x := by
  obtain ⟨hpatched, hok⟩ := parse_pair_tryPatch
  cases hparse : (pairParser.parse (.ofText (Bytes.ascii "+\n+").toArray) #[]).1 with
  | error e => rw [hparse] at hpatched; cases hpatched
  | ok tree =>
    rw [hparse] at hpatched
    obtain ⟨hdone, htree⟩ := Prod.mk.inj (Option.some.inj hpatched)
    obtain ⟨hcandidates, hnode⟩ := Prod.mk.inj htree
    obtain ⟨s, hs, hspan⟩ := Option.map_eq_some_iff.1 hnode
    obtain ⟨hinvoked, hstop⟩ := Prod.mk.inj hspan
    obtain ⟨id, s', rule, replacement, log, hid, hs', -, -, hend, -, hagrees⟩ :=
      tryPatch_agrees pairParser Comment.fitsWindow_of_mem_defaults
        (⟨by decide, by decide, by decide⟩ : pairEdit.Fits _) hparse (d := pairEdited) rfl rfl
        (Prod.ext hdone rfl)
    -- the only candidate is the second sign
    rw [hcandidates, List.mem_singleton] at hid
    subst hid
    cases hs'.symm.trans hs
    have hlt : s.info.invoked < replacement.info.stop := by
      rw [hend, hinvoked, hstop]
      decide
    rcases hagrees hlt #[] with ⟨name, depth, hdeep⟩ | ⟨tree', htree', hsame, hreads⟩
    · change (pairParser.parse (.ofText (Bytes.ascii "+\n-").toArray) #[]).1 = _ at hdeep
      rw [hdeep] at hok
      cases hok
    · exact ⟨tree, _, tree', rfl, Prod.ext hdone rfl, htree', hsame, hreads⟩

/-- The grammar `s <- &n &m n`, `n <- '+' '-' / r .`, `m <- k`, `k <- r`, `r <- '+'`, without ignored
text: the rule `r` is asked for by `n`, and one rule deeper by way of `m`. -/
def deepGrammar : Grammar where
  name := Bytes.ascii "deep"
  skipsIgnored := false
  rules := #[
    { name := Bytes.ascii "s", nodeType := Bytes.ascii "s", isFragment := false, description := []
      pattern := .seq none [.apply none .ahead (.atom none (.rule (Bytes.ascii "n"))),
        .apply none .ahead (.atom none (.rule (Bytes.ascii "m"))), .atom none (.rule (Bytes.ascii "n"))] },
    { name := Bytes.ascii "n", nodeType := Bytes.ascii "n", isFragment := false, description := []
      pattern := .choice none [
        .seq none [.atom none (.literal (Bytes.ascii "+")), .atom none (.literal (Bytes.ascii "-"))],
        .seq none [.atom none (.rule (Bytes.ascii "r")), .atom none .anyByte]] },
    { name := Bytes.ascii "m", nodeType := Bytes.ascii "m", isFragment := false, description := []
      pattern := .atom none (.rule (Bytes.ascii "k")) },
    { name := Bytes.ascii "k", nodeType := Bytes.ascii "k", isFragment := false, description := []
      pattern := .atom none (.rule (Bytes.ascii "r")) },
    { name := Bytes.ascii "r", nodeType := Bytes.ascii "r", isFragment := false, description := []
      pattern := .atom none (.literal (Bytes.ascii "+")) }]

def deepParser : Parser where
  grammar := deepGrammar
  maxDepth := 3
  leftRecursive_eq := by decide +kernel

/-- The star is replaced by a stroke. -/
def deepRun : List Op := [.parse (Bytes.ascii "+*").toArray, .edit ⟨1, 1, Bytes.ascii "-"⟩]

/-- The parse of "+*" remembers what `r` gives before `m` asks for it, and so does not go too deep.  The
edit is patched into `n`, which no longer asks for `r`; a parse of "+-" meets `r` first by way of `m`,
and goes too deep there. -/
theorem performAll_deepRun :
    ((ofParser deepParser).performAll deepRun #[]).1.stats = ⟨2, 1, 0⟩
      ∧ ((ofParser deepParser).performAll deepRun #[]).1.text = (Bytes.ascii "+-").toArray
      ∧ (((ofParser deepParser).performAll deepRun #[]).1.tree.map fun t =>
          t.preorder.map fun id => ((t.infoAt id).type, (t.infoAt id).invoked, (t.infoAt id).stop))
        = some [(Bytes.ascii "s", 0, 2), (Bytes.ascii "n", 0, 2), (Bytes.ascii "Operator", 0, 1),
          (Bytes.ascii "Operator", 1, 2)]
      ∧ (deepParser.parse (.ofText (Bytes.ascii "+-").toArray) #[]).1
        = .error (.exhausted 3 (Bytes.ascii "r") 4) := by
  cbv

end Document

end Packrat
