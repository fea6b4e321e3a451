import Packrat.Proofs.Parse.Memo

/-!
What a derivation takes over.

The nodes of an outcome are among those that were taken over on the way (`Derives.nodes_took`), and
whatever holds of the outcomes of tokens, and of the outcome of a rule if it holds inside of the rule,
holds of everything that is taken over (`Derives.entries_induct`).

From that: a node is the only one of its symbol and offset (`Made.unique`), and what was examined on
the way to the outcome of a rule is examined by the rule and the nodes that it brings
(`Derives.examined_rule`).  A node that is made in vain is charged to the rule; one that is kept
answers for itself, also for the times when it was made in vain.
-/

namespace Packrat

namespace Parse

variable {ctx : Context} {g : Goal} {o stop : Nat} {out : Outcome} {y : Yield} {tr : List Event}

/-! ### Everything that is taken over -/

theorem Outcome.nodes_many (stop : Nat) (ps : Array Piece) :
    (Outcome.ok stop (.many ps)).nodes = ps.filterMap Piece.node? := rfl

@[simp] theorem Outcome.nodes_one (stop : Nat) (key : Key) (tree : Subtree) :
    (Outcome.ok stop (.one (.node key tree))).nodes = #[(key, tree)] := by
  simp [Outcome.nodes, Yield.nodes, Yield.pieces, Piece.node?]

theorem scanned_nodes (l : Look) (bytes : Nat → Bytes) (start : Nat) :
    (scanned l fun stop => .ok stop (.one (.text (bytes stop) start))).nodes = #[] := by
  unfold scanned
  cases l.reach <;> rfl

/-- The nodes of an outcome are among those that were taken over. -/
theorem Derives.nodes_took (h : Derives ctx g o out tr) {n : Key × Subtree} (hn : n ∈ out.nodes) :
    ∃ e, .took e ∈ tr ∧ n ∈ e.outcome.nodes := by
  -- pieces that are put together, each with a trace of its own
  have both : ∀ {m stop : Nat} {y : Yield} {ps : Array Piece} {tr tr' : List Event},
      (∀ {n}, n ∈ (Outcome.ok m y).nodes → ∃ e, .took e ∈ tr ∧ n ∈ e.outcome.nodes) →
      (∀ {n}, n ∈ (Outcome.ok stop (.many ps)).nodes → ∃ e, .took e ∈ tr' ∧ n ∈ e.outcome.nodes) →
      ∀ {n}, n ∈ (Outcome.ok stop (.many (y.pieces ++ ps))).nodes →
        ∃ e, .took e ∈ tr ++ tr' ∧ n ∈ e.outcome.nodes := by
    intro m stop y ps tr tr' h₁ h₂ n hn
    rw [Outcome.nodes_many, Array.mem_filterMap] at hn
    obtain ⟨p, hp, hnode⟩ := hn
    rcases Array.mem_append.1 hp with hp | hp
    · obtain ⟨e, he, hmem⟩ := h₁ (Array.mem_filterMap.2 ⟨p, hp, hnode⟩)
      exact ⟨e, List.mem_append_left _ he, hmem⟩
    · obtain ⟨e, he, hmem⟩ := h₂ (Array.mem_filterMap.2 ⟨p, hp, hnode⟩)
      exact ⟨e, List.mem_append_right _ he, hmem⟩
  induction h generalizing n with
  | literal _ hout => rw [hout, scanned_nodes] at hn; simp at hn
  | charClass _ hout => rw [hout, scanned_nodes] at hn; simp at hn
  | anyByte _ hout => rw [hout, scanned_nodes] at hn; simp at hn
  | ruleAtom _ ih => exact ih hn
  | tokenAtom _ ih => exact ih hn
  | star _ ih => exact ih hn
  | plus _ _ ih => exact ih hn
  | plus_fail _ _ => simp [Outcome.nodes] at hn
  | option _ ih => exact ih hn
  | option_fail _ _ => simp [Outcome.nodes, Yield.nodes, Yield.empty, Yield.pieces] at hn
  | ahead _ _ => simp [Outcome.nodes, Yield.nodes, Yield.empty, Yield.pieces] at hn
  | ahead_fail _ _ => simp [Outcome.nodes] at hn
  | notAhead _ _ => simp [Outcome.nodes] at hn
  | notAhead_fail _ _ => simp [Outcome.nodes, Yield.nodes, Yield.empty, Yield.pieces] at hn
  | many_fail _ _ => simp [Outcome.nodes_many] at hn
  | many_stay _ _ => simp [Outcome.nodes_many] at hn
  | many_more _ _ _ ih ihs => exact both ih ihs hn
  | seq _ ih => exact ih hn
  | seq_nil => simp [Outcome.nodes_many] at hn
  | seq_fail _ _ => simp [Outcome.nodes] at hn
  | seq_stop _ _ _ _ => simp [Outcome.nodes] at hn
  | seq_cons _ _ ih ihs => exact both ih ihs hn
  | choice _ ih => exact ih hn
  | choice_nil => simp [Outcome.nodes] at hn
  | choice_first _ ih => exact ih hn
  | choice_next _ _ _ ihs =>
    obtain ⟨e, he, hmem⟩ := ihs hn
    exact ⟨e, List.mem_append_right _ he, hmem⟩
  | name_rule _ _ ih => exact ih hn
  | name_token _ _ _ _ ih => exact ih hn
  | name_fail _ _ => simp [Outcome.nodes] at hn
  | rule _ _ _ hres _ => exact ⟨_, by simp, hres ▸ hn⟩
  | token _ hres => exact ⟨_, by simp, hres ▸ hn⟩

/-- What comes out of a rule, given the derivation of its pattern. -/
def ruleEntryOf (ctx : Context) (id : Nat) (rule : Rule) (o : Nat) (out : Outcome)
    (tr : List Event) : Entry :=
  (ruleResult ctx 0 rule ⟨id, o⟩ (skipped ctx o).1 out
    (Frame.after {} ((skipped ctx o).2.map .saw ++ tr))).flat

/-- What comes out of a token. -/
def tokenEntryOf (ctx : Context) (kind : TokenKind) (o : Nat) : Entry :=
  (tokenResult ctx 0 kind ⟨tokenSymbol ctx kind, o⟩).flat

/-- To show something of everything that is taken over, it can be assumed inside of a rule. -/
theorem Derives.entries_induct {Q : Entry → Prop}
    (token : ∀ kind o, o ≤ ctx.source.size → Q (tokenEntryOf ctx kind o))
    (rule : ∀ id r o out tr, o ≤ ctx.source.size → ctx.grammar.rules[id]? = some r →
      Derives ctx (.expr r.pattern) (skipped ctx o).1 out tr → (∀ e, .took e ∈ tr → Q e) →
      Q (ruleEntryOf ctx id r o out tr))
    (h : Derives ctx g o out tr) (ho : o ≤ ctx.source.size) : ∀ e, .took e ∈ tr → Q e := by
  have both : ∀ {tr tr' : List Event}, (∀ e, .took e ∈ tr → Q e) → (∀ e, .took e ∈ tr' → Q e) →
      ∀ e, .took e ∈ tr ++ tr' → Q e :=
    fun h₁ h₂ e he => (List.mem_append.1 he).elim (h₁ e) (h₂ e)
  induction h with
  | literal _ _ => simp
  | charClass _ _ => simp
  | anyByte _ _ => simp
  | ruleAtom _ ih => exact ih ho
  | tokenAtom _ ih => exact ih ho
  | star _ ih => exact ih ho
  | plus _ _ ih => exact ih ho
  | plus_fail _ ih => exact ih ho
  | option _ ih => exact ih ho
  | option_fail _ ih => exact ih ho
  | ahead _ ih => exact ih ho
  | ahead_fail _ ih => exact ih ho
  | notAhead _ ih => exact ih ho
  | notAhead_fail _ ih => exact ih ho
  | many_fail _ ih => exact ih ho
  | many_stay _ ih => exact ih ho
  | many_more hd _ _ ih ihs => exact both (ih ho) (ihs (hd.bounds ho rfl).2)
  | seq _ ih => exact ih ho
  | seq_nil => simp
  | seq_fail _ ih => exact ih ho
  | seq_stop hd _ ih ihs => exact both (ih ho) (ihs (hd.bounds ho rfl).2)
  | seq_cons hd _ ih ihs => exact both (ih ho) (ihs (hd.bounds ho rfl).2)
  | choice _ ih => exact ih ho
  | choice_nil => simp
  | choice_first _ ih => exact ih ho
  | choice_next _ _ ih ihs => exact both (ih ho) (ihs ho)
  | name_rule _ _ ih => exact ih ho
  | name_token _ _ _ _ ih => exact ih ho
  | name_fail _ _ => simp
  | rule hrule hd hentry _ ih =>
    intro e he
    cases List.mem_singleton.1 he
    rw [hentry]
    exact rule _ _ _ _ _ ho hrule hd (ih (skipped_linked ho).stop_le)
  | token hentry _ =>
    intro e he
    cases List.mem_singleton.1 he
    rw [hentry]
    exact token _ _ ho

/-! ### Nodes and what they have examined -/

/-- An event has examined an offset, itself or through a node that it brings. -/
def Event.Examined : Event → Nat → Prop
  | .saw l, x => l.start ≤ x ∧ x < l.stop
  | .took e, x => e.reads.mem x ∨ ∃ n ∈ e.outcome.nodes, n.2.Examined x

/-- The reads of an outcome and of its nodes are in order. -/
structure Entry.Orderly (e : Entry) : Prop where
  reads : e.reads.Ordered
  nodes : ∀ n ∈ e.outcome.nodes, n.2.Orderly

theorem operatorLeaf?_eq_some {depth : Nat} {bytes : Bytes} {s : Subtree}
    (h : operatorLeaf? ctx depth bytes o = some s) :
    s = .node { type := Bytes.ascii "Operator", value := .text bytes,
                line := (ctx.source.position o).1, column := (ctx.source.position o).2, start := o,
                stop := o + bytes.length, invoked := o, depth := depth + 1 } [] := by
  unfold operatorLeaf? at h
  split at h
  · cases h
  · exact (Option.some.inj h).symm

theorem operatorLeaf?_reads {depth : Nat} {bytes : Bytes} {s : Subtree}
    (h : operatorLeaf? ctx depth bytes o = some s) : s.Orderly ∧ ∀ x, ¬s.Examined x := by
  rw [operatorLeaf?_eq_some h]
  refine ⟨Subtree.orderly_node.2 ⟨Footprint.ordered_empty, by simp⟩, fun x => ?_⟩
  rw [Subtree.examined_node]
  simp only [List.not_mem_nil, false_and, exists_false, or_false]
  exact Footprint.not_mem_empty

/-- The children of a node around a yield: its nodes, and leaves that have examined nothing. -/
theorem Yield.wrap_eq (ctx : Context) (info : NodeInfo) (y : Yield) :
    ∃ info' children, y.wrap ctx info = .node info' children ∧ info'.reads = info.reads
      ∧ (∀ n ∈ y.nodes, n.2 ∈ children)
      ∧ ∀ c ∈ children, (∃ key, (key, c) ∈ y.nodes) ∨
          ∃ bytes o, operatorLeaf? ctx info.depth bytes o = some c := by
  cases y with
  | one p =>
    cases p with
    | node key tree =>
      refine ⟨info, [tree], rfl, rfl, ?_, ?_⟩
      · simp [Yield.nodes, Yield.pieces, Piece.node?]
      · intro c hc
        cases List.mem_singleton.1 hc
        exact .inl ⟨key, by simp [Yield.nodes, Yield.pieces, Piece.node?]⟩
    | text bytes o =>
      exact ⟨_, [], rfl, rfl, by simp [Yield.nodes, Yield.pieces, Piece.node?], by simp⟩
  | many ps =>
    refine ⟨info, _, rfl, rfl, ?_, ?_⟩
    · intro n hn
      obtain ⟨p, hp, hnode⟩ := Array.mem_filterMap.1 hn
      cases p with
      | text bytes o => cases hnode
      | node key tree =>
        cases Option.some.inj hnode
        exact List.mem_filterMap.2 ⟨.node key tree, Array.mem_toList_iff.2 hp, rfl⟩
    · intro c hc
      obtain ⟨p, hp, hchild⟩ := List.mem_filterMap.1 hc
      cases p with
      | text bytes o => exact .inr ⟨bytes, o, hchild⟩
      | node key tree =>
        cases Option.some.inj hchild
        exact .inl ⟨key, Array.mem_filterMap.2 ⟨_, Array.mem_toList_iff.1 hp, rfl⟩⟩

theorem Yield.orderly_wrap {info : NodeInfo} (hinfo : info.reads.Ordered)
    (hy : ∀ n ∈ y.nodes, n.2.Orderly) : (y.wrap ctx info).Orderly := by
  obtain ⟨info', children, heq, hreads, -, hchildren⟩ := y.wrap_eq ctx info
  rw [heq]
  refine Subtree.orderly_node.2 ⟨hreads ▸ hinfo, fun c hc => ?_⟩
  rcases hchildren c hc with ⟨key, hmem⟩ | ⟨bytes, o, hleaf⟩
  · exact hy _ hmem
  · exact (operatorLeaf?_reads hleaf).1

/-- What was examined for a node around a yield. -/
theorem Yield.examined_wrap {info : NodeInfo} {x : Nat} :
    (y.wrap ctx info).Examined x ↔ info.reads.mem x ∨ ∃ n ∈ y.nodes, n.2.Examined x := by
  obtain ⟨info', children, heq, hreads, hnodes, hchildren⟩ := y.wrap_eq ctx info
  rw [heq, Subtree.examined_node, hreads]
  refine or_congr_right ⟨?_, fun ⟨n, hn, hx⟩ => ⟨n.2, hnodes n hn, hx⟩⟩
  rintro ⟨c, hc, hx⟩
  rcases hchildren c hc with ⟨key, hmem⟩ | ⟨bytes, o, hleaf⟩
  · exact ⟨_, hmem, hx⟩
  · exact absurd hx ((operatorLeaf?_reads hleaf).2 x)

theorem Subtree.examined_flat (s : Subtree) (x : Nat) : s.flat.Examined x ↔ s.Examined x := by
  simp only [Subtree.Examined, Subtree.nodes_flat, List.mem_map]
  constructor
  · rintro ⟨_, ⟨i, hi, rfl⟩, hx⟩
    exact ⟨i, hi, hx⟩
  · rintro ⟨i, hi, hx⟩
    exact ⟨_, ⟨i, hi, rfl⟩, hx⟩

theorem Subtree.orderly_flat (s : Subtree) : s.flat.Orderly ↔ s.Orderly := by
  simp only [Subtree.Orderly, Subtree.nodes_flat, List.mem_map, forall_exists_index, and_imp,
    forall_apply_eq_imp_iff₂]
  rfl

theorem mem_nodes_flat {out : Outcome} {n : Key × Subtree} :
    n ∈ out.flat.nodes ↔ ∃ m ∈ out.nodes, flatNode m = n := by
  rw [Outcome.nodes_flat, Array.mem_map]

theorem Entry.orderly_flat {e : Entry} (h : e.Orderly) : e.flat.Orderly := by
  refine ⟨h.reads, fun n hn => ?_⟩
  obtain ⟨m, hm, rfl⟩ := mem_nodes_flat.1 hn
  exact (Subtree.orderly_flat m.2).2 (h.nodes m hm)

theorem Event.examined_flat {e : Entry} {x : Nat} :
    (Event.took e.flat).Examined x ↔ (Event.took e).Examined x := by
  refine or_congr_right ⟨?_, ?_⟩
  · rintro ⟨n, hn, hx⟩
    obtain ⟨m, hm, rfl⟩ := mem_nodes_flat.1 hn
    exact ⟨m, hm, (Subtree.examined_flat m.2 x).1 hx⟩
  · rintro ⟨n, hn, hx⟩
    exact ⟨_, mem_nodes_flat.2 ⟨n, hn, rfl⟩, (Subtree.examined_flat n.2 x).2 hx⟩

/-! ### Frames as sets -/

/-- What a frame has examined after a trace, and the nodes that it has touched. -/
theorem Frame.after_spec {f : Frame} (hf : f.reads.Ordered) (htr : ∀ e, .took e ∈ tr → e.Orderly) :
    (f.after tr).reads.Ordered
      ∧ (∀ x, (f.after tr).reads.mem x ↔ f.reads.mem x
          ∨ (∃ l, .saw l ∈ tr ∧ l.start ≤ x ∧ x < l.stop) ∨ ∃ e, .took e ∈ tr ∧ e.reads.mem x)
      ∧ ∀ n, n ∈ (f.after tr).touched ↔ n ∈ f.touched
          ∨ ∃ e, .took e ∈ tr ∧ n ∈ e.outcome.nodes := by
  induction tr generalizing f with
  | nil => simp [hf]
  | cons ev tr ih =>
    rw [Frame.after_cons]
    cases ev with
    | saw l =>
      obtain ⟨h₁, h₂⟩ := Footprint.note_spec hf l
      obtain ⟨h₃, h₄, h₅⟩ := ih (f := f.step (.saw l)) h₁ fun e he => htr e (by simp [he])
      refine ⟨h₃, fun x => ?_, fun n => ?_⟩
      · rw [h₄ x, show (f.step (.saw l)).reads = f.reads.note l from rfl, h₂ x]
        simp only [List.mem_cons, Event.saw.injEq, reduceCtorEq, false_or, or_and_right, exists_or,
          exists_eq_left, or_assoc]
      · rw [h₅ n]
        simp [Frame.step]
    | took e =>
      have he := htr e (by simp)
      obtain ⟨h₁, h₂⟩ := Footprint.merge_spec hf he.reads
      obtain ⟨h₃, h₄, h₅⟩ := ih (f := f.step (.took e)) h₁ fun e he => htr e (by simp [he])
      refine ⟨h₃, fun x => ?_, fun n => ?_⟩
      · rw [h₄ x, show (f.step (.took e)).reads = f.reads.merge e.reads from rfl, h₂ x]
        simp only [List.mem_cons, Event.took.injEq, reduceCtorEq, false_or, or_and_right, exists_or,
          exists_eq_left, or_assoc]
        rw [or_left_comm (a := e.reads.mem x)]
      · rw [h₅ n, show (f.step (.took e)).touched = f.touched ++ e.outcome.nodes from rfl,
          Array.mem_append]
        simp only [List.mem_cons, Event.took.injEq, or_and_right, exists_or, exists_eq_left, or_assoc]

/-- Charging some of the nodes that were touched. -/
theorem foldl_charge_spec (p : Key × Subtree → Bool) (ns : List (Key × Subtree)) {f : Footprint}
    (hf : f.Ordered) (hns : ∀ n ∈ ns, n.2.Orderly) :
    (ns.foldl (fun reads n => if p n then reads else n.2.charge reads) f).Ordered
      ∧ ∀ x, (ns.foldl (fun reads n => if p n then reads else n.2.charge reads) f).mem x
          ↔ f.mem x ∨ ∃ n ∈ ns, p n = false ∧ n.2.Examined x := by
  induction ns generalizing f with
  | nil => simp [hf]
  | cons n ns ih =>
    rw [List.foldl_cons]
    have hrest : ∀ n ∈ ns, n.2.Orderly := fun m hm => hns m (by simp [hm])
    by_cases hp : p n = true
    · rw [if_pos hp]
      obtain ⟨h₁, h₂⟩ := ih hf hrest
      refine ⟨h₁, fun x => ?_⟩
      rw [h₂ x]
      simp [hp]
    · rw [if_neg hp]
      obtain ⟨h₃, h₄⟩ := Subtree.charge_spec (hns n (by simp)) hf
      obtain ⟨h₁, h₂⟩ := ih h₃ hrest
      refine ⟨h₁, fun x => ?_⟩
      rw [h₂ x, h₄ x]
      simp [Bool.not_eq_true _ ▸ hp, or_assoc]

theorem Frame.total_spec {f : Frame} (hf : f.reads.Ordered) (hns : ∀ n ∈ f.touched, n.2.Orderly) :
    f.total.Ordered ∧ ∀ x, f.total.mem x ↔ f.reads.mem x ∨ ∃ n ∈ f.touched, n.2.Examined x := by
  have := foldl_charge_spec (fun _ => false) f.touched.toList hf (by simpa using hns)
  unfold Frame.total
  rw [← Array.foldl_toList]
  simpa using this

/-- Whether one of the nodes of a yield has the key. -/
def Yield.keeps (y : Yield) (k : Key) : Bool :=
  (y.nodes.foldl (fun (s : Std.HashSet Key) n => s.insert n.1) {}).contains k

theorem Yield.keeps_iff (y : Yield) (k : Key) : y.keeps k = true ↔ ∃ n ∈ y.nodes, n.1 = k := by
  have hfold : ∀ (ns : List (Key × Subtree)) (keys : Std.HashSet Key),
      (ns.foldl (fun (s : Std.HashSet Key) n => s.insert n.1) keys).contains k = true
        ↔ keys.contains k = true ∨ ∃ n ∈ ns, n.1 = k := by
    intro ns
    induction ns with
    | nil => simp
    | cons n ns ih =>
      intro keys
      rw [List.foldl_cons, ih, Std.HashSet.contains_insert]
      simp only [Bool.or_eq_true, beq_iff_eq, List.mem_cons, exists_eq_or_imp]
      tauto
  unfold Yield.keeps
  rw [← Array.foldl_toList, hfold]
  simp

theorem Frame.settle_eq (f : Frame) (y : Yield) :
    f.settle y = f.touched.toList.foldl
      (fun reads t => if y.keeps t.1 then reads else t.2.charge reads) f.reads := by
  rw [Array.foldl_toList]
  rfl

/-- What a rule has examined: everything in its frame, and the nodes that are not kept. -/
theorem Frame.settle_spec {f : Frame} (hf : f.reads.Ordered) (hns : ∀ n ∈ f.touched, n.2.Orderly)
    (y : Yield) :
    (f.settle y).Ordered ∧ ∀ x, (f.settle y).mem x ↔ f.reads.mem x
      ∨ ∃ n ∈ f.touched, (∀ m ∈ y.nodes, m.1 ≠ n.1) ∧ n.2.Examined x := by
  have := foldl_charge_spec (fun n => y.keeps n.1) f.touched.toList hf (by simpa using hns)
  rw [Frame.settle_eq]
  refine ⟨this.1, fun x => (this.2 x).trans (or_congr_right ?_)⟩
  simp only [Array.mem_toList_iff, ← Bool.not_eq_true, Yield.keeps_iff, not_exists, not_and, ne_eq]

/-! ### The nodes that are made -/

/-- A node that comes out of a rule or token under its own key. -/
def Made (ctx : Context) (n : Key × Subtree) : Prop :=
  ∃ g e stop, g.symbol? ctx = some n.1.symbol ∧ Entry.Derived ctx g n.1.offset e
    ∧ e.outcome.flat = .ok stop (.one (.node n.1 n.2))

/-- The key of a node determines the node. -/
theorem Made.unique {n m : Key × Subtree} (hn : Made ctx n) (hm : Made ctx m) (hkey : n.1 = m.1) :
    n = m := by
  obtain ⟨g, e, stop, hg, hd, hout⟩ := hn
  obtain ⟨g', e', stop', hg', hd', hout'⟩ := hm
  rw [hkey] at hg hd
  cases Goal.symbol?_inj hg hg'
  have heq := (Derives.unique hd hd').1
  rw [hout, hout'] at heq
  injection heq with _ heq
  injection heq with heq
  injection heq with _ heq
  exact Prod.ext hkey heq

theorem Made.flat_eq {n : Key × Subtree} (hn : Made ctx n) : flatNode n = n := by
  obtain ⟨g, e, stop, -, -, hout⟩ := hn
  have heq := congrArg Outcome.flat hout
  rw [Outcome.flat_flat, hout] at heq
  injection heq with _ heq
  injection heq with heq
  injection heq with _ heq
  exact Prod.ext rfl heq.symm

/-! ### Tokens -/

/-- The look that a token takes behind ignored text; the reserved ones take none. -/
def tokenLook (text : Text) (start : Nat) : TokenKind → List Look
  | .number => [Scan.number text start]
  | .string => [Scan.quoted text start]
  | .ident => [Scan.identifier text start]
  | .newline => [Scan.newline text start]
  | .endOfInput => [Scan.blanks text start]
  | .indent | .dedent => []

/-- All looks of a token. -/
def tokenLooks (ctx : Context) (kind : TokenKind) (o : Nat) : List Look :=
  (skipped ctx o).2 ++ tokenLook ctx.source.text (skipped ctx o).1 kind

/-- What a token has examined. -/
def tokenReads (ctx : Context) (kind : TokenKind) (o : Nat) : Footprint :=
  (tokenLooks ctx kind o).foldl Footprint.note .empty

/-- What can come out of a token: a leaf under its key, which answers for what was examined, or
an outcome without nodes. -/
inductive TokenShape (ctx : Context) (kind : TokenKind) (key : Key) : Entry → Prop
  | leaf (info : NodeInfo) : info.reads = tokenReads ctx kind key.offset →
      info.start = (skipped ctx key.offset).1 → info.invoked = key.offset → info.rule = none →
      (info.line, info.column) = ctx.source.position info.start →
      TokenShape ctx kind key ⟨.ok info.stop (.one (.node key (.node info []))), .empty⟩
  | bare (stop : Nat) : TokenShape ctx kind key ⟨.ok stop .empty, tokenReads ctx kind key.offset⟩
  | fail : TokenShape ctx kind key ⟨.fail, tokenReads ctx kind key.offset⟩

theorem tokenReads_eq (kind : TokenKind) {l : Look}
    (h : tokenLook ctx.source.text (skipped ctx o).1 kind = [l]) :
    tokenReads ctx kind o = ((skipped ctx o).2.foldl Footprint.note .empty).note l := by
  rw [tokenReads, tokenLooks, h, List.foldl_append]
  rfl

theorem nodeResult_shape {kind : TokenKind} {key : Key} {l : Look} {depth : Nat} {type : Bytes}
    {value : Nat → Value}
    (h : tokenLook ctx.source.text (skipped ctx key.offset).1 kind = [l]) :
    TokenShape ctx kind key (nodeResult ((skipped ctx key.offset).2.foldl Footprint.note .empty) l
      fun stop reads =>
        tokenNode ctx key depth (skipped ctx key.offset).1 stop type (value stop) reads) := by
  unfold nodeResult
  rw [← tokenReads_eq kind h]
  cases l.reach with
  | upTo stop =>
    exact .leaf
      { type, value := value stop, stop, depth := depth + 1,
        line := (ctx.source.position (skipped ctx key.offset).1).1,
        column := (ctx.source.position (skipped ctx key.offset).1).2,
        start := (skipped ctx key.offset).1, invoked := key.offset,
        reads := tokenReads ctx kind key.offset } rfl rfl rfl rfl rfl
  | nothing => exact .fail
  | beyond => exact .fail

theorem tokenResult_shape (ctx : Context) (depth : Nat) (kind : TokenKind) (key : Key) :
    TokenShape ctx kind key (tokenResult ctx depth kind key) := by
  cases kind with
  | number => exact nodeResult_shape rfl
  | string => exact nodeResult_shape rfl
  | ident => exact nodeResult_shape rfl
  | newline =>
    unfold tokenResult
    dsimp only
    rw [← tokenReads_eq .newline rfl]
    unfold scanned
    cases (Scan.newline ctx.source.text (skipped ctx key.offset).1).reach with
    | upTo stop => exact .bare stop
    | nothing => exact .fail
    | beyond => exact .fail
  | endOfInput =>
    unfold tokenResult
    dsimp only
    rw [← tokenReads_eq .endOfInput rfl]
    split
    · exact .bare _
    · exact .fail
  | indent =>
    have : tokenReads ctx .indent key.offset
        = (skipped ctx key.offset).2.foldl Footprint.note .empty := by
      simp [tokenReads, tokenLooks, tokenLook]
    unfold tokenResult
    dsimp only
    rw [← this]
    exact .fail
  | dedent =>
    have : tokenReads ctx .dedent key.offset
        = (skipped ctx key.offset).2.foldl Footprint.note .empty := by
      simp [tokenReads, tokenLooks, tokenLook]
    unfold tokenResult
    dsimp only
    rw [← this]
    exact .fail

/-- A fold of looks as a set. -/
theorem foldl_note_spec (looks : List Look) {f : Footprint} (hf : f.Ordered) :
    (looks.foldl Footprint.note f).Ordered
      ∧ ∀ x, (looks.foldl Footprint.note f).mem x ↔ f.mem x
          ∨ ∃ l ∈ looks, l.start ≤ x ∧ x < l.stop := by
  induction looks generalizing f with
  | nil => simp [hf]
  | cons l looks ih =>
    obtain ⟨h₁, h₂⟩ := Footprint.note_spec hf l
    obtain ⟨h₃, h₄⟩ := ih h₁
    refine ⟨h₃, fun x => ?_⟩
    rw [List.foldl_cons, h₄ x, h₂ x]
    simp only [List.mem_cons, exists_eq_or_imp, or_assoc]

theorem tokenReads_spec (ctx : Context) (kind : TokenKind) (o : Nat) :
    (tokenReads ctx kind o).Ordered
      ∧ ∀ x, (tokenReads ctx kind o).mem x
          ↔ ∃ l ∈ tokenLooks ctx kind o, l.start ≤ x ∧ x < l.stop := by
  obtain ⟨h₁, h₂⟩ := foldl_note_spec (tokenLooks ctx kind o) Footprint.ordered_empty
  exact ⟨h₁, fun x => (h₂ x).trans (by simp [Footprint.not_mem_empty])⟩

/-- What a token has examined is what it has looked at. -/
theorem examined_token (kind : TokenKind) (x : Nat) :
    (Event.took (tokenEntryOf ctx kind o)).Examined x
      ↔ ∃ l ∈ tokenLooks ctx kind o, l.start ≤ x ∧ x < l.stop := by
  rw [← (tokenReads_spec ctx kind o).2 x, tokenEntryOf, Event.examined_flat]
  have hshape := tokenResult_shape ctx 0 kind ⟨tokenSymbol ctx kind, o⟩
  generalize tokenResult ctx 0 kind ⟨tokenSymbol ctx kind, o⟩ = e at hshape ⊢
  unfold Event.Examined
  cases hshape with
  | leaf info hreads =>
    simp [Outcome.nodes, Yield.nodes, Yield.pieces, Piece.node?, Subtree.examined_node, hreads]
  | bare stop => simp [Outcome.nodes, Yield.nodes, Yield.empty, Yield.pieces]
  | fail => simp [Outcome.nodes]

theorem tokenEntryOf_orderly (kind : TokenKind) : (tokenEntryOf ctx kind o).Orderly := by
  have hreads := (tokenReads_spec ctx kind o).1
  have hshape := tokenResult_shape ctx 0 kind ⟨tokenSymbol ctx kind, o⟩
  refine Entry.orderly_flat ?_
  generalize tokenResult ctx 0 kind ⟨tokenSymbol ctx kind, o⟩ = e at hshape ⊢
  cases hshape with
  | leaf info hinfo =>
    refine ⟨Footprint.ordered_empty, ?_⟩
    simpa [Outcome.nodes, Yield.nodes, Yield.pieces, Piece.node?, Subtree.orderly_node, hinfo]
      using hreads
  | bare stop => exact ⟨hreads, by simp [Outcome.nodes, Yield.nodes, Yield.empty, Yield.pieces]⟩
  | fail => exact ⟨hreads, by simp [Outcome.nodes]⟩

theorem tokenEntryOf_made (kind : TokenKind) :
    ∀ n ∈ (tokenEntryOf ctx kind o).outcome.nodes, Made ctx n := by
  intro n hn
  have hd : Entry.Derived ctx (.token kind) o (tokenEntryOf ctx kind o) := by
    unfold Entry.Derived
    refine .token ?_ rfl
    rw [tokenEntryOf, Entry.flat_flat]
  obtain ⟨m, hm, rfl⟩ := mem_nodes_flat.1 hn
  have hout : (tokenEntryOf ctx kind o).outcome.flat
      = (tokenResult ctx 0 kind ⟨tokenSymbol ctx kind, o⟩).outcome.flat := Outcome.flat_flat _
  have hshape := tokenResult_shape ctx 0 kind ⟨tokenSymbol ctx kind, o⟩
  generalize tokenResult ctx 0 kind ⟨tokenSymbol ctx kind, o⟩ = e at hm hout hshape
  cases hshape with
  | leaf info =>
    have : m = (⟨tokenSymbol ctx kind, o⟩, .node info []) := by
      simpa [Outcome.nodes, Yield.nodes, Yield.pieces, Piece.node?] using hm
    subst this
    exact ⟨.token kind, _, _, rfl, hd, hout⟩
  | bare stop => simp [Outcome.nodes, Yield.nodes, Yield.empty, Yield.pieces] at hm
  | fail => simp [Outcome.nodes] at hm

/-! ### Rules -/

/-- What everything that is taken over is like: in order, with nodes that are made. -/
structure Entry.Proper (ctx : Context) (e : Entry) : Prop extends e.Orderly where
  made : ∀ n ∈ e.outcome.nodes, Made ctx n

/-- The frame of a rule whose pattern has left a trace. -/
def ruleFrame (ctx : Context) (o : Nat) (tr : List Event) : Frame :=
  Frame.after {} ((skipped ctx o).2.map .saw ++ tr)

section Frames

variable (htr : ∀ e, .took e ∈ tr → e.Proper ctx)

include htr

theorem ruleFrame_spec :
    (ruleFrame ctx o tr).reads.Ordered
      ∧ (∀ x, (ruleFrame ctx o tr).reads.mem x
          ↔ (∃ l, .saw l ∈ (skipped ctx o).2.map Event.saw ++ tr ∧ l.start ≤ x ∧ x < l.stop)
            ∨ ∃ e, .took e ∈ (skipped ctx o).2.map Event.saw ++ tr ∧ e.reads.mem x)
      ∧ ∀ n, n ∈ (ruleFrame ctx o tr).touched ↔ ∃ e, .took e ∈ tr ∧ n ∈ e.outcome.nodes := by
  have hall : ∀ e, .took e ∈ (skipped ctx o).2.map Event.saw ++ tr → e.Orderly := by
    intro e he
    rcases List.mem_append.1 he with he | he
    · simp at he
    · exact (htr e he).toOrderly
  obtain ⟨h₁, h₂, h₃⟩ := Frame.after_spec (f := {}) Footprint.ordered_empty hall
  refine ⟨h₁, fun x => (h₂ x).trans ?_, fun n => (h₃ n).trans ?_⟩
  · simp only [show (({} : Frame).reads.mem x) = False from eq_false Footprint.not_mem_empty,
      false_or]
  · simp

theorem touched_proper {n : Key × Subtree} (hn : n ∈ (ruleFrame ctx o tr).touched) :
    n.2.Orderly ∧ Made ctx n := by
  obtain ⟨e, he, hmem⟩ := ((ruleFrame_spec htr).2.2 n).1 hn
  exact ⟨(htr e he).nodes n hmem, (htr e he).made n hmem⟩

/-- The nodes that an outcome keeps are proper, and were touched. -/
theorem kept_touched (hd : Derives ctx g (skipped ctx o).1 out tr) {n : Key × Subtree}
    (hn : n ∈ out.nodes) : n ∈ (ruleFrame ctx o tr).touched :=
  ((ruleFrame_spec htr).2.2 n).2 (hd.nodes_took hn)

/-- What a trace has examined is what the frame and the nodes it has touched have examined. -/
theorem ruleFrame_examined {x : Nat} :
    (∃ ev ∈ (skipped ctx o).2.map Event.saw ++ tr, ev.Examined x)
      ↔ (ruleFrame ctx o tr).reads.mem x
        ∨ ∃ n ∈ (ruleFrame ctx o tr).touched, n.2.Examined x := by
  obtain ⟨-, hreads, htouched⟩ := ruleFrame_spec (o := o) htr
  constructor
  · rintro ⟨ev, hev, hx⟩
    cases ev with
    | saw l => exact .inl ((hreads x).2 (.inl ⟨l, hev, hx⟩))
    | took e =>
      rcases hx with hx | ⟨n, hn, hx⟩
      · exact .inl ((hreads x).2 (.inr ⟨e, hev, hx⟩))
      · refine .inr ⟨n, (htouched n).2 ⟨e, ?_, hn⟩, hx⟩
        simpa using hev
  · rintro (hx | ⟨n, hn, hx⟩)
    · rcases (hreads x).1 hx with ⟨l, hl, hx⟩ | ⟨e, he, hx⟩
      · exact ⟨_, hl, hx⟩
      · exact ⟨_, he, .inl hx⟩
    · obtain ⟨e, he, hmem⟩ := (htouched n).1 hn
      exact ⟨_, List.mem_append_right _ he, .inr ⟨n, hmem, hx⟩⟩

/-- What is charged to a rule together with the nodes that it keeps: everything. -/
theorem settle_examined (hd : Derives ctx g (skipped ctx o).1 (.ok stop y) tr) {x : Nat} :
    (((ruleFrame ctx o tr).settle y).mem x ∨ ∃ n ∈ y.nodes, n.2.Examined x)
      ↔ (ruleFrame ctx o tr).reads.mem x
        ∨ ∃ n ∈ (ruleFrame ctx o tr).touched, n.2.Examined x := by
  have hkept : ∀ n ∈ y.nodes, n ∈ (ruleFrame ctx o tr).touched :=
    fun n hn => kept_touched htr hd (show n ∈ (Outcome.ok stop y).nodes from hn)
  obtain ⟨-, hsettle⟩ := Frame.settle_spec (ruleFrame_spec (o := o) htr).1
    (fun n hn => (touched_proper htr hn).1) y
  rw [hsettle x]
  constructor
  · rintro ((hx | ⟨n, hn, -, hx⟩) | ⟨n, hn, hx⟩)
    · exact .inl hx
    · exact .inr ⟨n, hn, hx⟩
    · exact .inr ⟨n, hkept n hn, hx⟩
  · rintro (hx | ⟨n, hn, hx⟩)
    · exact .inl (.inl hx)
    · by_cases hkey : ∀ m ∈ y.nodes, m.1 ≠ n.1
      · exact .inl (.inr ⟨n, hn, hkey, hx⟩)
      · -- a node that is kept under the same key is the same node
        push Not at hkey
        obtain ⟨m, hm, heq⟩ := hkey
        have := Made.unique (touched_proper htr (hkept m hm)).2 (touched_proper htr hn).2 heq
        exact .inr ⟨m, hm, this ▸ hx⟩

end Frames

theorem ruleEntryOf_eq (id : Nat) (rule : Rule) (out : Outcome) :
    ruleEntryOf ctx id rule o out tr
      = (ruleResult ctx 0 rule ⟨id, o⟩ (skipped ctx o).1 out (ruleFrame ctx o tr)).flat := rfl

theorem Frame.settle_ordered (htr : ∀ e, .took e ∈ tr → e.Proper ctx) (y : Yield) :
    ((ruleFrame ctx o tr).settle y).Ordered :=
  (Frame.settle_spec (ruleFrame_spec (o := o) htr).1 (fun _ hn => (touched_proper htr hn).1) y).1

theorem Frame.total_ordered (htr : ∀ e, .took e ∈ tr → e.Proper ctx) :
    (ruleFrame ctx o tr).total.Ordered :=
  (Frame.total_spec (ruleFrame_spec (o := o) htr).1 fun _ hn => (touched_proper htr hn).1).1

theorem ruleEntryOf_proper {id : Nat} {rule : Rule} (hrule : ctx.grammar.rules[id]? = some rule)
    (hd : Derives ctx (.expr rule.pattern) (skipped ctx o).1 out tr)
    (htr : ∀ e, .took e ∈ tr → e.Proper ctx) : (ruleEntryOf ctx id rule o out tr).Proper ctx := by
  have hderived : Entry.Derived ctx (.rule id) o (ruleEntryOf ctx id rule o out tr) := by
    unfold Entry.Derived
    refine .rule hrule hd ?_ rfl
    rw [ruleEntryOf, Entry.flat_flat]
  have hid : id < ctx.grammar.rules.size := by
    by_contra hlt
    rw [Array.getElem?_eq_none (by omega)] at hrule
    cases hrule
  rw [ruleEntryOf_eq] at hderived ⊢
  cases out with
  | fail =>
    refine ⟨Entry.orderly_flat ⟨Frame.total_ordered htr, ?_⟩, ?_⟩
    · simp [ruleResult, Outcome.nodes]
    · simp [ruleResult, Entry.flat, Outcome.flat, Outcome.nodes]
  | ok stop y =>
    have hkept : ∀ n ∈ y.nodes, n.2.Orderly ∧ Made ctx n := fun n hn =>
      touched_proper htr (kept_touched htr hd (show n ∈ (Outcome.ok stop y).nodes from hn))
    by_cases hfrag : rule.isFragment = true
    · rw [ruleResult_fragment hfrag]
      refine ⟨Entry.orderly_flat ⟨Frame.settle_ordered htr y, fun n hn => (hkept n hn).1⟩, ?_⟩
      intro n hn
      rw [Entry.flat_outcome] at hn
      obtain ⟨m, hm, rfl⟩ := mem_nodes_flat.1 hn
      have := (hkept m hm).2
      rwa [this.flat_eq]
    · rw [ruleResult_node (by simpa using hfrag)] at hderived ⊢
      have htree : (y.wrap ctx (ruleInfo ctx 0 rule ⟨id, o⟩ (skipped ctx o).1 stop
          ((ruleFrame ctx o tr).settle y))).Orderly :=
        Yield.orderly_wrap (Frame.settle_ordered htr y) fun n hn => (hkept n hn).1
      refine ⟨Entry.orderly_flat ⟨Footprint.ordered_empty, ?_⟩, ?_⟩
      · rw [Outcome.nodes_one]
        simpa using htree
      · intro n hn
        rw [Entry.flat_outcome] at hn
        obtain ⟨m, hm, rfl⟩ := mem_nodes_flat.1 hn
        rw [Outcome.nodes_one] at hm
        cases Array.mem_singleton.1 hm
        refine ⟨.rule id, _, stop, if_pos hid, hderived, ?_⟩
        rw [Entry.flat_outcome, Outcome.flat_flat]
        rfl

/-- Everything that is taken over is proper. -/
theorem Derives.proper (h : Derives ctx g o out tr) (ho : o ≤ ctx.source.size) :
    ∀ e, .took e ∈ tr → e.Proper ctx :=
  h.entries_induct (fun kind _ _ => ⟨tokenEntryOf_orderly kind, tokenEntryOf_made kind⟩)
    (fun _ _ _ _ _ _ hrule hd htr => ruleEntryOf_proper hrule hd htr) ho

/-- What is examined on the way to the outcome of a rule is examined by the rule and the nodes that
it brings, and nothing else is. -/
theorem Derives.examined_rule {id : Nat} {rule : Rule}
    (hd : Derives ctx (.expr rule.pattern) (skipped ctx o).1 out tr) (ho : o ≤ ctx.source.size)
    (x : Nat) :
    (Event.took (ruleEntryOf ctx id rule o out tr)).Examined x
      ↔ ∃ ev ∈ (skipped ctx o).2.map Event.saw ++ tr, ev.Examined x := by
  have htr := hd.proper (skipped_linked ho).stop_le
  rw [ruleFrame_examined htr, ruleEntryOf_eq, Event.examined_flat]
  cases out with
  | fail =>
    refine Iff.trans ?_ ((Frame.total_spec (ruleFrame_spec (o := o) htr).1
      fun n hn => (touched_proper htr hn).1).2 x)
    simp [ruleResult, Event.Examined, Outcome.nodes]
  | ok stop y =>
    rw [← settle_examined htr hd]
    by_cases hfrag : rule.isFragment = true
    · rw [ruleResult_fragment hfrag]
      exact Iff.rfl
    · rw [ruleResult_node (by simpa using hfrag)]
      simp only [Event.Examined, Outcome.nodes_one, Array.mem_singleton, exists_eq_left,
        Footprint.not_mem_empty, false_or]
      exact Yield.examined_wrap

end Parse

end Packrat
