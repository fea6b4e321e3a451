import Packrat.Proofs.Document.Spans
import Packrat.Proofs.Tree.Positions

/-!
Positions in a document that is edited.

The trail of a tree is the text that it was parsed from and the edits that have been patched into it
since (`Document.trail`); the tree belongs to the text at its end.  Whatever has been done to a document
and looked at on the way, every node reports the position that its start had at some point of the trail
from which on the edits have left it in place (`Document.performAll_dated`).  If the trail is steady
this is the present position (`Document.performAll_positions`), and it always is if edits only put in
more than they take out (`Document.performAll_positions_of_lengthens`).

Other edits can leave the start of a node where it is and change its line: a node is not looked up anew
then, and goes on to report the old position (`Document.performAll_lettersRun`).
-/

namespace Packrat

namespace Parser

open Parse

variable {p : Parser} {source : Source} {id o stop depth : Nat} {rule : Rule} {log : Log} {tree : Subtree}

/-- What a region gives is placed in its text. -/
theorem region_tidy (hrule : p.grammar.rules[id]? = some rule) (hfragment : rule.isFragment = false)
    (ho : o ≤ source.size) (h : (p.region source id o stop depth log).1 = .ok (some tree)) :
    tree.Tidy source := by
  obtain ⟨tr, hd⟩ := region_derives hrule hfragment ho h
  have hwithin := (hd.laid ho rfl).within (.node ⟨id, o⟩ tree.flat) (by simp [Yield.pieces])
  exact Subtree.tidy_flat.1 hwithin.2.2.1

end Parser

namespace Document

open Parse

variable {d d' : Document} {op : Op} {r : Trail}

/-! ### Trails -/

/-- The trail of the tree after an operation that makes `d'` of `d`.  A tree that was parsed just now
starts a new one; an edit goes on with it if it was patched into the tree; and a tree that is stale has
not seen the edit. -/
def nextTrail (r : Trail) (d : Document) (op : Op) (d' : Document) : Trail :=
  match op, d'.tree with
  | .parse text, _ => ⟨text, []⟩
  | .edit e, some tree =>
    if d'.stale then r
    else if tree.version = 0 then ⟨d'.text, []⟩
    else r.extend (e.clamp d.text.size)
  | _, _ => r

/-- The trail of the tree after operations, none of them a batch. -/
def trailFrom (d : Document) (r : Trail) (log : Log) : List Op → Trail
  | [] => r
  | op :: ops =>
    let (d', log') := d.perform op log
    d'.trailFrom (nextTrail r d op d') log' ops

/-- What the tree of a document has gone through in a run of operations: the text that it was parsed from,
and the edits that were patched into it, each cut to the text that it was applied to. -/
def trail (p : Parser) (ops : List Op) (log : Log) : Trail :=
  (ofParser p).trailFrom {} log (ops.flatMap Op.parts)

/-- Whatever every step keeps of a document and the trail of its tree is kept by every run. -/
theorem trail_induct {P : Document → Trail → Prop} {ops : List Op}
    (hstep : ∀ {d d' : Document} {op : Op} {r : Trail}, op ∈ ops.flatMap Op.parts → P d r →
      d.text.size < Text.maxSize → d'.text.size < Text.maxSize → Step d op d' →
      P d' (nextTrail r d op d'))
    {p : Parser} (hp : P (ofParser p) {}) (hshort : Short #[] ops) (log : Log) :
    P ((ofParser p).performAll ops log).1 (trail p ops log) := by
  rw [← performAll_flatMap_parts]
  unfold trail
  unfold Short at hshort
  have hparts : ∀ op ∈ ops.flatMap Op.parts, ∀ es, op ≠ .edits es := fun _ => parts_ne_edits
  have hsize : (ofParser p).text.size < Text.maxSize := show 0 < Text.maxSize by decide
  change ∀ u ∈ textsOf (ofParser p).text _, _ at hshort
  generalize ops.flatMap Op.parts = ops at hstep hshort hparts
  generalize ofParser p = d at hp hshort hsize
  generalize ({} : Trail) = r at hp
  -- on the operations; the document before them and the trail that its tree has by then go along
  induction ops generalizing d r log with
  | nil => exact hp
  | cons op ops ih =>
    have h := perform_step d (hparts op List.mem_cons_self) log
    have hsize' : (d.perform op log).1.text.size < Text.maxSize := by
      rw [h.text_eq]
      exact hshort _ List.mem_cons_self
    refine ih _ (fun hop' => hstep (List.mem_cons_of_mem _ hop'))
      (fun op' hop' => hparts op' (List.mem_cons_of_mem _ hop')) _ ?_ hsize' _
      (hstep List.mem_cons_self hp hsize hsize' h)
    rw [h.text_eq]
    exact fun u hu => hshort u (List.mem_cons_of_mem _ hu)

/-- The edits of a trail are those of the run, cut to texts. -/
theorem mem_nextTrail {e : Edit} (h : e ∈ (nextTrail r d op d').edits) :
    e ∈ r.edits ∨ ∃ e₀, op = .edit e₀ ∧ e = e₀.clamp d.text.size := by
  unfold nextTrail at h
  split at h
  · cases h
  · split at h
    · exact .inl h
    · split at h
      · cases h
      · refine (List.mem_append.1 h).imp id fun h => ⟨_, rfl, List.mem_singleton.1 h⟩
  · exact .inl h

/-! ### Documents -/

/-- The tree of the document, if there is one, belongs to the end of the trail, and its nodes follow
it. -/
def Positioned (d : Document) (r : Trail) : Prop := ∀ tree, d.tree = some tree → tree.Positioned r

/-- A tree that was parsed just now has not seen any edits, and starts a trail. -/
theorem positioned_of_parse {p : Parser} {text : Text} {tree : Tree} {log : Log}
    (hsize : text.size < Text.maxSize) (h : (p.parse (.ofText text) log).1 = .ok tree) :
    tree.version = 0 ∧ tree.Positioned ⟨text, []⟩ := by
  obtain ⟨root, htree, haccepts⟩ := p.parse_accepts h
  have htidy := Subtree.tidy_flat.1 haccepts.settled.tidy
  rw [htree]
  exact ⟨Tree.version_ofSubtree _ _ _, Tree.positioned_ofSubtree hsize htidy _⟩

/-- An edit that is patched into a tree goes on with its trail. -/
theorem positioned_graft {p : Parser} {tree : Tree} {sh : Shape} {e : Edit} {id depth : Nat} {s : Slot}
    {replacement : Subtree} {log : Log} (h : tree.Positioned r) (hfirm : tree.Firm p.grammar sh)
    (hfits : e.Fits tree.source.text) (hid : id ∈ (candidates tree e).1)
    (hnode : (candidates tree e).2.node? id = some s) (hencloses : encloses s e = true)
    (hregion : (p.region (tree.source.edit e) (s.info.rule.getD 0) s.info.invoked
      (Offset.move s.info.stop e.delta) depth log).1 = .ok (some replacement)) :
    ((candidates tree e).2.graft id replacement e).Positioned (r.extend e) := by
  have hview := candidates_sameView tree e
  rw [hview.node?_eq] at hnode
  obtain ⟨ls, sub, rfl, rfl, ht, -⟩ := targeted_of_candidates hfirm hfits hid hnode hencloses
  obtain ⟨⟨rule, hrule⟩, hle, -⟩ := encloses_iff.1 hencloses
  obtain ⟨_, hr, hfragment⟩ :=
    licensed_of_node? hfirm (Shape.mem_ids_plug.2 (.inl sub.id_mem_ids)) hnode hrule
  rw [hrule, Option.getD_some] at hregion
  have hstart : s.info.invoked ≤ (tree.source.edit e).size :=
    Nat.le_trans hle hfits.offset_le_size
  have htidy := p.region_tidy hr hfragment hstart hregion
  refine (h.sameView hview hfirm.arranged).graft (hfirm.sameView hview) (ht.sameView hview) ?_
  rwa [hview.source]

/-- Every step keeps the tree positioned on its trail. -/
theorem Step.positioned (h : Step d op d') (hstep : d.InStep) (hfirm : d.Firm) (hd : d.Positioned r)
    (hsize : d.text.size < Text.maxSize) (hsize' : d'.text.size < Text.maxSize) :
    d'.Positioned (nextTrail r d op d') := by
  cases h with
  | parsed htree =>
    rintro _ ⟨⟩
    exact (positioned_of_parse hsize' htree).2
  | @reparsed e tree log stats htree =>
    rintro _ ⟨⟩
    obtain ⟨hversion, hpositioned⟩ := positioned_of_parse hsize' htree
    simp only [nextTrail, hversion, Bool.false_eq_true, if_false, if_true]
    exact hpositioned
  | refused _ =>
    intro tree htree
    cases htree
  | @kept e err tree log stats _ htree =>
    intro tree' htree'
    change tree = some tree' at htree'
    subst htree'
    -- the tree is stale, and has not seen the edit
    show tree'.Positioned r
    rcases htree with hsame | ⟨t, ht, -, -, htree⟩
    · exact hd tree' hsame.symm
    · cases htree
      obtain ⟨-, sh, hfirm⟩ := hfirm t ht
      exact (hd t ht).sameView (candidates_sameView t _) hfirm.arranged
  | @patched e tree id s replacement log stats htree hpatchable hstale hid hnode hencloses hregion =>
    rintro _ ⟨⟩
    obtain ⟨-, sh, hfirm⟩ := hfirm tree htree
    have hsource := hstep.tree tree htree hstale
    have hfits : (e.clamp d.text.size).Fits tree.source.text := by
      rw [hsource]
      exact Edit.clamp_fits hsize hsize'
    rw [(hstep.patchable hpatchable).2.2, ← hsource] at hregion
    have hpositioned := positioned_graft (hd tree htree) hfirm hfits hid hnode hencloses hregion
    -- the tree has seen the edit at least
    have hversion := hpositioned.version_eq
    simp only [Trail.extend, List.length_append, List.length_cons, List.length_nil] at hversion
    simp only [nextTrail, Bool.false_eq_true, if_false]
    rwa [if_neg (by omega)]
  | invalidated => exact hd
  | emptied =>
    intro tree htree
    cases htree
  | @looked id =>
    intro tree htree
    obtain ⟨tree, hsome, rfl⟩ := Option.map_eq_some_iff.1 htree
    obtain ⟨-, sh, hfirm⟩ := hfirm tree hsome
    exact (hd tree hsome).sameView (tree.catchUp_sameView id) hfirm.arranged

theorem positioned_performAll (p : Parser) {ops : List Op} (hshort : Short #[] ops) (log : Log) :
    ((ofParser p).performAll ops log).1.Positioned (trail p ops log) :=
  (trail_induct (P := fun d r => d.InStep ∧ d.Firm ∧ d.Positioned r)
    (fun _ hd hsize hsize' h => ⟨h.inStep hd.1 hsize hsize', h.firm hd.1 hd.2.1 hsize hsize',
      h.positioned hd.1 hd.2.1 hd.2.2 hsize hsize'⟩)
    ⟨inStep_ofParser p, fun _ h => (nomatch h), fun _ h => (nomatch h)⟩ hshort log).2.2

/-- **A node reports a position that it had.** After any run of operations, none of whose texts is too
long for its offsets, the tree of the document, be it fresh, patched or stale, belongs to the text at
the end of its trail, and the line and column of every node are those that its start had at some point
of the trail from which on the edits have left the start in place. -/
theorem performAll_dated (p : Parser) {ops : List Op} (hshort : Short #[] ops) (log : Log)
    {tree : Tree} (htree : ((ofParser p).performAll ops log).1.tree = some tree) :
    tree.source.text = (trail p ops log).last
      ∧ ∀ id ∈ tree.preorder, ∃ s, tree.node? id = some s ∧ s.Dated (trail p ops log) := by
  have hpositioned := positioned_performAll p hshort log tree htree
  obtain ⟨-, sh, hfirm⟩ := firm_performAll p hshort log tree htree
  refine ⟨by rw [hpositioned.source]; rfl, fun id hid => ?_⟩
  obtain ⟨s, hs, -⟩ := performAll_spans p hshort log htree id hid
  exact ⟨s, hs, hpositioned.dated hfirm.arranged hid hs⟩

/-- **Positions are current along a steady trail.** After any run of operations, none of whose texts is
too long for its offsets, let no edits at the end of the trail of the tree, taken together, leave an offset
in place and change its line or column.  Then every node reports the line and the column of its start in
the text that the tree belongs to, whatever has been looked at on the way. -/
theorem performAll_positions (p : Parser) {ops : List Op} (hshort : Short #[] ops) (log : Log)
    {tree : Tree} (htree : ((ofParser p).performAll ops log).1.tree = some tree)
    (hsteady : (trail p ops log).Steady) :
    tree.source.text = (trail p ops log).last
      ∧ ∀ id ∈ tree.preorder, ∃ s, tree.node? id = some s
        ∧ s.info.line = tree.source.text.line s.info.start
        ∧ s.info.column = tree.source.text.column s.info.start := by
  obtain ⟨htext, hdated⟩ := performAll_dated p hshort log htree
  refine ⟨htext, fun id hid => ?_⟩
  obtain ⟨s, hs, hdate⟩ := hdated id hid
  rw [htext]
  exact ⟨s, hs, hdate.current hsteady⟩

/-- **While text is only put in, positions are current.** If every edit of a run puts in more than it
takes out, the trail of the tree is steady. -/
theorem steady_trail_of_lengthens (p : Parser) {ops : List Op} (hshort : Short #[] ops) (log : Log)
    {tree : Tree} (htree : ((ofParser p).performAll ops log).1.tree = some tree)
    (hlengthens : ∀ e, Op.edit e ∈ ops.flatMap Op.parts → e.oldLength < e.newLength) :
    (trail p ops log).Steady := by
  refine Trail.steady_of_lengthens (positioned_performAll p hshort log tree htree).fits ?_
  refine trail_induct (P := fun _ r => ∀ e ∈ r.edits, e.oldLength < e.newLength)
    (fun {d d' op r} hop hr _ _ _ e he => ?_) (fun _ h => (nomatch h)) hshort log
  rcases mem_nextTrail he with he | ⟨e₀, rfl, rfl⟩
  · exact hr e he
  · exact Nat.lt_of_le_of_lt (Nat.min_le_left _ _) (hlengthens e₀ hop)

/-! ### Letters and lines -/

/-- The class of a text that is one. -/
def classOf (source : String) (h : (CharClass.ofSource? (Bytes.ascii source)).isSome = true) : Expr :=
  .atom none (.charClass ((CharClass.ofSource? (Bytes.ascii source)).get h))

/-- Three letters or blanks: `s <- a a a`, where `a <- [a] / blank`. -/
def lettersGrammar (blank : Expr) : Grammar where
  name := Bytes.ascii "letters"
  skipsIgnored := false
  rules := #[
    { name := Bytes.ascii "s", nodeType := Bytes.ascii "s", isFragment := false, description := []
      pattern := .seq none [.atom none (.rule (Bytes.ascii "a")), .atom none (.rule (Bytes.ascii "a")),
        .atom none (.rule (Bytes.ascii "a"))] },
    { name := Bytes.ascii "a", nodeType := Bytes.ascii "a", isFragment := false, description := []
      pattern := .choice none [classOf "a" (by decide +kernel), blank] }]

/-- A blank is one byte: `a <- [a] / [ \n]`. -/
def lettersParser : Parser where
  grammar := lettersGrammar (classOf " \\n" (by decide +kernel))
  maxDepth := 2
  leftRecursive_eq := by decide +kernel

/-- A blank may be long: `a <- [a] / [ \n]+`. -/
def linesParser : Parser where
  grammar := lettersGrammar (.apply none .plus (classOf " \\n" (by decide +kernel)))
  maxDepth := 2
  leftRecursive_eq := by decide +kernel

/-- A line is put in front of two letters that stand behind a blank, and the last letter is looked at. -/
def linesRun : List Op :=
  [.parse (Bytes.ascii " aa").toArray, .edit ⟨0, 0, Bytes.ascii "\n"⟩, .look 3]

theorem short_linesRun : Short #[] linesRun := by
  unfold Short
  decide +kernel

theorem performAll_linesRun :
    ((ofParser linesParser).performAll linesRun #[]).1.stats = ⟨2, 1, 0⟩
      ∧ ((ofParser linesParser).performAll linesRun #[]).1.tree.map (fun t =>
          (t.source.text, t.preorder, (t.node? 3).map fun s => s.info.start))
        = some ((Bytes.ascii "\n aa").toArray, [0, 1, 2, 3], some 3) := by
  cbv

/-- The last letter has moved with the patched line break, and reports the second line. -/
theorem performAll_linesRun_positions :
    Short #[] linesRun ∧ (trail linesParser linesRun #[]).Steady
      ∧ ((ofParser linesParser).performAll linesRun #[]).1.stats.patched = 1
      ∧ ∃ tree s, ((ofParser linesParser).performAll linesRun #[]).1.tree = some tree
        ∧ tree.node? 3 = some s ∧ s.info.start = 3 ∧ s.info.line = 2 ∧ s.info.column = 3 := by
  obtain ⟨hstats, hmap⟩ := performAll_linesRun
  obtain ⟨tree, htree, hseen⟩ := Option.map_eq_some_iff.1 hmap
  obtain ⟨htext, hrest⟩ := Prod.mk.inj hseen
  obtain ⟨hpreorder, hstart⟩ := Prod.mk.inj hrest
  have hsteady := steady_trail_of_lengthens linesParser short_linesRun #[] htree fun e he => by
    obtain rfl : e = ⟨0, 0, Bytes.ascii "\n"⟩ := by simpa [linesRun, Op.parts] using he
    decide
  obtain ⟨-, hpositions⟩ := performAll_positions linesParser short_linesRun #[] htree hsteady
  obtain ⟨s, hs, hline, hcolumn⟩ := hpositions 3 (by rw [hpreorder]; decide)
  rw [hs] at hstart
  have hstart : s.info.start = 3 := Option.some.inj hstart
  rw [htext, hstart] at hline hcolumn
  exact ⟨short_linesRun, hsteady, by rw [hstats], tree, s, htree, hs, hstart,
    hline.trans (by decide), hcolumn.trans (by decide)⟩

/-- A blank in front of two letters is replaced by a line break. -/
def lettersRun : List Op := [.parse (Bytes.ascii " aa").toArray, .edit ⟨0, 1, Bytes.ascii "\n"⟩]

/-- The letters stay where they are, and report the first line, where they stood; they stand in the
second one. -/
theorem performAll_lettersRun :
    ((ofParser lettersParser).performAll lettersRun #[]).1.stats = ⟨2, 1, 0⟩
      ∧ ((ofParser lettersParser).performAll lettersRun #[]).1.tree.map (fun t =>
          t.preorder.map fun id => ((t.infoAt id).start, ((t.infoAt id).line, (t.infoAt id).column),
            t.source.text.line (t.infoAt id).start, t.source.text.column (t.infoAt id).start))
        = some [(0, (1, 1), 1, 1), (0, (1, 1), 1, 1), (1, (1, 2), 2, 1), (2, (1, 3), 2, 2)] := by
  cbv

end Document

end Packrat
