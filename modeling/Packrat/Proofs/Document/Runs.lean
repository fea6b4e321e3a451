import Packrat.Document
import Packrat.Proofs.Text.Edits

/-!
Runs of operations on a document.

A document is parsed, edited, invalidated, emptied and looked at in any order (`Op`, `performAll`).
What one operation can do is said once (`Step`): a text is parsed or refused, an edit is patched into
a node, or the whole text is parsed again, or the old tree is kept.  Whatever holds of a document
without text and is kept by every step holds after every run (`performAll_induct`).

Texts are as long as there are offsets for them, so a run is about the texts that the document has on
its way (`textsOf`): all of them, also those between the edits of one batch, are shorter than
`Text.maxSize`.
-/

namespace Packrat

theorem Logged.bind_apply {α β : Type} (m : Logged α) (f : α → Logged β) (log : Log) :
    (m >>= f) log = f (m log).1 (m log).2 := rfl

namespace Document

/-! ### Operations -/

/-- What can be done to a document. -/
inductive Op where
  | parse (text : Text)
  | edit (e : Edit)
  | edits (es : List Edit)
  | invalidate
  | reset
  /-- Lets a node of the tree catch up, as every question about the node does. -/
  | look (id : Nat)

/-- Performs an operation. -/
def perform (d : Document) : Op → Logged Document
  | .parse text => do return (← d.parse text).2
  | .edit e => d.edit e
  | .edits es => d.edits es
  | .invalidate => return d.invalidate
  | .reset => return d.reset
  | .look id => return { d with tree := d.tree.map (·.catchUp id) }

/-- Performs operations one after the other. -/
def performAll (d : Document) (ops : List Op) : Logged Document := ops.foldlM perform d

/-- An operation as operations that change the text once at most: a batch is its edits, those at
higher offsets first. -/
def Op.parts : Op → List Op
  | .edits es => (es.mergeSort fun a b => b.offset ≤ a.offset).map .edit
  | op => [op]

/-- The text of a document after an operation. -/
def Op.after (t : Text) : Op → Text
  | .parse text => text
  | .edit e => e.into t
  | .edits es => (es.mergeSort fun a b => b.offset ≤ a.offset).foldl (fun t e => e.into t) t
  | .invalidate | .look _ => t
  | .reset => #[]

/-- The texts that a document has while operations are performed. -/
def textsOf (t : Text) : List Op → List Text
  | [] => []
  | op :: ops => op.after t :: textsOf (op.after t) ops

/-- No text on the way is too long for its offsets. -/
def Short (t : Text) (ops : List Op) : Prop :=
  ∀ u ∈ textsOf t (ops.flatMap Op.parts), u.size < Text.maxSize

theorem foldl_parts (t : Text) (op : Op) : op.parts.foldl Op.after t = op.after t := by
  cases op with
  | edits es => exact List.foldl_map
  | _ => rfl

theorem foldl_flatMap_parts (t : Text) (ops : List Op) :
    (ops.flatMap Op.parts).foldl Op.after t = ops.foldl Op.after t := by
  induction ops generalizing t with
  | nil => rfl
  | cons op ops ih => rw [List.flatMap_cons, List.foldl_append, foldl_parts, ih, List.foldl_cons]

theorem performAll_append (d : Document) (ops ops' : List Op) (log : Log) :
    d.performAll (ops ++ ops') log
      = (d.performAll ops log).1.performAll ops' (d.performAll ops log).2 := by
  unfold performAll
  rw [List.foldlM_append]
  rfl

/-- A batch is performed part by part. -/
theorem performAll_parts (d : Document) (op : Op) : d.performAll op.parts = d.perform op := by
  cases op with
  | edits es =>
    show List.foldlM perform d (_ : List Op) = _
    rw [Op.parts, List.foldlM_map]
    rfl
  | _ => rfl

theorem performAll_flatMap_parts (d : Document) (ops : List Op) (log : Log) :
    d.performAll (ops.flatMap Op.parts) log = d.performAll ops log := by
  induction ops generalizing d log with
  | nil => rfl
  | cons op ops ih =>
    rw [List.flatMap_cons, performAll_append, performAll_parts, ih]
    rfl

/-! ### Steps -/

/-- What an operation other than a batch can do to a document.  The counts may be any. -/
inductive Step (d : Document) : Op → Document → Prop
  | parsed {text : Text} {tree : Tree} {log : Log} {stats : Stats}
      (htree : (d.parser.parse (.ofText text) log).1 = .ok tree) :
      Step d (.parse text) ⟨d.parser, text, .ofText text, some tree, true, false, stats⟩
  | refused {text : Text} {err : ParseError} {log : Log} {stats : Stats}
      (herr : (d.parser.parse (.ofText text) log).1 = .error err) :
      Step d (.parse text) ⟨d.parser, text, .ofText text, none, false, false, stats⟩
  /-- The edit is patched into a node: the region of the node is matched anew in the edited text. -/
  | patched {e : Edit} {tree : Tree} {id : Nat} {s : Slot} {replacement : Subtree} {log : Log}
      {stats : Stats} (htree : d.tree = some tree) (hpatchable : d.patchable = true)
      (hstale : d.stale = false) (hid : id ∈ (candidates tree (e.clamp d.text.size)).1)
      (hnode : (candidates tree (e.clamp d.text.size)).2.node? id = some s)
      (hencloses : encloses s (e.clamp d.text.size) = true)
      (hregion : (d.parser.region (d.scanned.edit (e.clamp d.text.size)) (s.info.rule.getD 0)
        s.info.invoked (Offset.move s.info.stop (e.clamp d.text.size).delta) s.info.depth log).1
          = .ok (some replacement)) :
      Step d (.edit e) ⟨d.parser, e.into d.text, d.scanned.edit (e.clamp d.text.size),
        some ((candidates tree (e.clamp d.text.size)).2.graft id replacement
          (e.clamp d.text.size)), true, false, stats⟩
  | reparsed {e : Edit} {tree : Tree} {log : Log} {stats : Stats}
      (htree : (d.parser.parse (.ofText (e.into d.text)) log).1 = .ok tree) :
      Step d (.edit e) ⟨d.parser, e.into d.text, .ofText (e.into d.text), some tree, true, false, stats⟩
  /-- The text does not parse: the tree is kept, but for the looks taken at it. -/
  | kept {e : Edit} {err : ParseError} {tree : Option Tree} {log : Log} {stats : Stats}
      (herr : (d.parser.parse (.ofText (e.into d.text)) log).1 = .error err)
      (htree : tree = d.tree ∨ ∃ t, d.tree = some t ∧ d.patchable = true ∧ d.stale = false
        ∧ tree = some (candidates t (e.clamp d.text.size)).2) :
      Step d (.edit e)
        ⟨d.parser, e.into d.text, .ofText (e.into d.text), tree, false, tree.isSome, stats⟩
  | invalidated : Step d .invalidate d.invalidate
  | emptied : Step d .reset d.reset
  | looked {id : Nat} : Step d (.look id) { d with tree := d.tree.map (·.catchUp id) }

/-- A node that is made anew is one of those asked for, it encloses the edit, and its region has
matched. -/
theorem patchFrom_eq_some {d : Document} {tree tree' : Tree} {e : Edit} {ids : List Nat} {log : Log}
    (h : (d.patchFrom tree e ids log).1 = .ok (some tree')) :
    ∃ id ∈ ids, ∃ s replacement log', tree.node? id = some s ∧ encloses s e = true
      ∧ (d.parser.region d.scanned (s.info.rule.getD 0) s.info.invoked
          (Offset.move s.info.stop e.delta) s.info.depth log').1 = .ok (some replacement)
      ∧ tree' = tree.graft id replacement e := by
  induction ids generalizing log with
  | nil => cases h
  | cons id ids ih =>
    unfold patchFrom at h
    cases hnode : tree.node? id with
    | none =>
      rw [hnode] at h
      obtain ⟨id', hid', hspec⟩ := ih h
      exact ⟨id', List.mem_cons_of_mem _ hid', hspec⟩
    | some s =>
      simp only [hnode] at h
      by_cases hencloses : encloses s e = true
      · rw [if_pos hencloses, Logged.bind_apply] at h
        generalize hlog : (d.parser.region d.scanned (s.info.rule.getD 0) s.info.invoked
          (Offset.move s.info.stop e.delta) s.info.depth log).2 = log' at h
        cases hregion : (d.parser.region d.scanned (s.info.rule.getD 0) s.info.invoked
            (Offset.move s.info.stop e.delta) s.info.depth log).1 with
        | error err =>
          rw [hregion] at h
          cases h
        | ok found =>
          rw [hregion] at h
          cases found with
          | none =>
            obtain ⟨id', hid', hspec⟩ := ih h
            exact ⟨id', List.mem_cons_of_mem _ hid', hspec⟩
          | some replacement =>
            cases h
            exact ⟨id, List.mem_cons_self, s, replacement, log, hnode, hencloses, hregion, rfl⟩
      · rw [if_neg hencloses] at h
        obtain ⟨id', hid', hspec⟩ := ih h
        exact ⟨id', List.mem_cons_of_mem _ hid', hspec⟩

/-- An attempt to patch leaves the tree as it was but for the looks at it, unless it succeeds. -/
theorem tryPatch_fst (d : Document) (tree : Tree) (e : Edit) (log : Log) :
    (d.tryPatch tree e log).1 = (false, (candidates tree e).2)
      ∨ ∃ tree' log', (d.patchFrom (candidates tree e).2 e (candidates tree e).1 log').1
          = .ok (some tree') ∧ (d.tryPatch tree e log).1 = (true, tree') := by
  unfold tryPatch
  dsimp only
  rw [Logged.bind_apply]
  cases hpatch : (d.patchFrom (candidates tree e).2 e (candidates tree e).1 log).1 with
  | error err => exact .inl rfl
  | ok found =>
    cases found with
    | none => exact .inl rfl
    | some tree' => exact .inr ⟨tree', log, hpatch, rfl⟩

/-- Parsing the whole text again gives a tree or keeps the one that is there. -/
theorem reparse_fst (d : Document) (log : Log) :
    (∃ tree stats, (d.parser.parse (.ofText d.text) log).1 = .ok tree
      ∧ (d.reparse log).1 = ⟨d.parser, d.text, .ofText d.text, some tree, true, false, stats⟩)
    ∨ ∃ err stats, (d.parser.parse (.ofText d.text) log).1 = .error err
      ∧ (d.reparse log).1
        = ⟨d.parser, d.text, .ofText d.text, d.tree, false, d.tree.isSome, stats⟩ := by
  unfold reparse
  dsimp only [source]
  rw [Logged.bind_apply]
  cases hparse : (d.parser.parse (.ofText d.text) log).1 with
  | ok tree => exact .inl ⟨tree, _, rfl, rfl⟩
  | error err => exact .inr ⟨err, _, rfl, rfl⟩

theorem edit_step (d : Document) (e : Edit) (log : Log) : Step d (.edit e) (d.edit e log).1 := by
  -- what happens if nothing is patched, to a tree that may have been looked at
  have again : ∀ (tree : Option Tree) (scanned : Source) (patchable stale : Bool) (stats : Stats)
      (log' : Log), (tree = d.tree ∨ ∃ t, d.tree = some t ∧ d.patchable = true ∧ d.stale = false
        ∧ tree = some (candidates t (e.clamp d.text.size)).2) →
      Step d (.edit e)
        (reparse ⟨d.parser, e.into d.text, scanned, tree, patchable, stale, stats⟩ log').1 := by
    intro tree scanned patchable stale stats log' htree
    obtain ⟨tree', stats', hparse, heq⟩ | ⟨err, stats', hparse, heq⟩ := reparse_fst
      ⟨d.parser, e.into d.text, scanned, tree, patchable, stale, stats⟩ log'
    · rw [heq]
      exact .reparsed hparse
    · rw [heq]
      exact .kept hparse htree
  unfold Document.edit
  dsimp only
  cases htree : d.tree with
  | none => exact again none _ _ _ _ _ (.inl htree.symm)
  | some tree =>
    cases hlive : d.patchable && !d.stale with
    | false => exact again (some tree) _ _ _ _ _ (.inl htree.symm)
    | true =>
      obtain ⟨hpatchable, hstale⟩ : d.patchable = true ∧ d.stale = false := by simpa using hlive
      dsimp only
      rw [Logged.bind_apply]
      rcases tryPatch_fst ⟨d.parser, (e.clamp d.text.size).applyTo d.text,
        d.scanned.edit (e.clamp d.text.size), some tree, d.patchable, d.stale,
        ⟨d.stats.total + 1, d.stats.patched, d.stats.reparsed⟩⟩ tree
        (e.clamp d.text.size) log with hfst | ⟨tree', log', hpatch, hfst⟩
      · rw [hfst]
        exact again _ _ _ _ _ _ (.inr ⟨tree, htree, hpatchable, hstale, rfl⟩)
      · rw [hfst]
        obtain ⟨id, hid, s, replacement, log'', hnode, hencloses, hregion, rfl⟩ :=
          patchFrom_eq_some hpatch
        show Step d (.edit e) ⟨d.parser, e.into d.text, d.scanned.edit _, some _, true, d.stale, _⟩
        rw [hstale]
        exact .patched htree hpatchable hstale hid hnode hencloses hregion

/-- Every operation other than a batch is a step. -/
theorem perform_step (d : Document) {op : Op} (hop : ∀ es, op ≠ .edits es) (log : Log) :
    Step d op (d.perform op log).1 := by
  cases op with
  | parse text =>
    show Step d (.parse text) (d.parse text log).1.2
    unfold Document.parse
    dsimp only
    rw [Logged.bind_apply]
    cases hparse : (d.parser.parse (.ofText text) log).1 with
    | ok tree => exact .parsed hparse
    | error err => exact .refused hparse
  | edit e => exact edit_step d e log
  | edits es => exact absurd rfl (hop es)
  | invalidate => exact .invalidated
  | reset => exact .emptied
  | look id => exact .looked

/-- A step changes the text as its operation says, and nothing changes the parser. -/
theorem Step.text_eq {d d' : Document} {op : Op} (h : Step d op d') : d'.text = op.after d.text := by
  cases h <;> rfl

theorem Step.parser_eq {d d' : Document} {op : Op} (h : Step d op d') : d'.parser = d.parser := by
  cases h <;> rfl

theorem parts_ne_edits {op : Op} {ops : List Op} (h : op ∈ ops.flatMap Op.parts) (es : List Edit) :
    op ≠ .edits es := by
  obtain ⟨op', -, hop⟩ := List.mem_flatMap.1 h
  rintro rfl
  cases op' <;> simp [Op.parts] at hop

/-! ### Runs -/

/-- Whatever the steps keep that meet a condition is kept by a run on texts that are short enough, if
the condition holds of every document on the way and of what is done to it next. -/
theorem performAll_induct_of {P : Document → Prop} {Q : Document → Op → Prop}
    (hstep : ∀ {d d' : Document} {op : Op}, P d → Q d op → d.text.size < Text.maxSize →
      d'.text.size < Text.maxSize → Step d op d' → P d')
    {d : Document} (hd : P d) (hsize : d.text.size < Text.maxSize) {ops : List Op}
    (hshort : Short d.text ops) (log : Log)
    (hmeets : ∀ before op after, ops.flatMap Op.parts = before ++ op :: after →
      Q (d.performAll before log).1 op) : P (d.performAll ops log).1 := by
  rw [← performAll_flatMap_parts]
  unfold Short at hshort
  have hparts : ∀ op ∈ ops.flatMap Op.parts, ∀ es, op ≠ .edits es := fun _ => parts_ne_edits
  generalize ops.flatMap Op.parts = ops at hshort hparts hmeets
  induction ops generalizing d log with
  | nil => exact hd
  | cons op ops ih =>
    have h := perform_step d (hparts op List.mem_cons_self) log
    have hsize' : (d.perform op log).1.text.size < Text.maxSize := by
      rw [h.text_eq]
      exact hshort _ List.mem_cons_self
    refine ih (hstep hd (hmeets [] op ops rfl) hsize hsize' h) hsize' _ ?_
      (fun op' hop' => hparts op' (List.mem_cons_of_mem _ hop'))
      fun before op' after heq => hmeets (op :: before) op' after (congrArg (op :: ·) heq)
    rw [h.text_eq]
    exact fun u hu => hshort u (List.mem_cons_of_mem _ hu)

/-- Whatever every step keeps is kept by every run on texts that are short enough. -/
theorem performAll_induct {P : Document → Prop}
    (hstep : ∀ {d d' : Document} {op : Op}, P d → d.text.size < Text.maxSize →
      d'.text.size < Text.maxSize → Step d op d' → P d')
    {d : Document} (hd : P d) (hsize : d.text.size < Text.maxSize) {ops : List Op}
    (hshort : Short d.text ops) (log : Log) : P (d.performAll ops log).1 :=
  performAll_induct_of (Q := fun _ _ => True) (fun hd _ => hstep hd) hd hsize hshort log
    fun _ _ _ _ => trivial

/-- The text after a run is what the operations make of it. -/
theorem performAll_text (d : Document) (ops : List Op) (log : Log) :
    (d.performAll ops log).1.text = ops.foldl Op.after d.text := by
  rw [← performAll_flatMap_parts, ← foldl_flatMap_parts]
  have hparts : ∀ op ∈ ops.flatMap Op.parts, ∀ es, op ≠ .edits es := fun _ => parts_ne_edits
  generalize ops.flatMap Op.parts = ops at hparts
  induction ops generalizing d log with
  | nil => rfl
  | cons op ops ih =>
    have h := perform_step d (hparts op List.mem_cons_self) log
    rw [List.foldl_cons, ← h.text_eq]
    exact ih _ _ fun op' hop' => hparts op' (List.mem_cons_of_mem _ hop')

theorem parser_performAll (d : Document) (ops : List Op) (log : Log) :
    (d.performAll ops log).1.parser = d.parser := by
  rw [← performAll_flatMap_parts]
  have hparts : ∀ op ∈ ops.flatMap Op.parts, ∀ es, op ≠ .edits es := fun _ => parts_ne_edits
  generalize ops.flatMap Op.parts = ops at hparts
  induction ops generalizing d log with
  | nil => rfl
  | cons op ops ih =>
    have h := perform_step d (hparts op List.mem_cons_self) log
    rw [← h.parser_eq]
    exact ih _ _ fun op' hop' => hparts op' (List.mem_cons_of_mem _ hop')

end Document

end Packrat
