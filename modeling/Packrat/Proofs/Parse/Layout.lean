import Packrat.Proofs.Parse.Moved
import Packrat.Proofs.Parse.Transparency

/-!
How a tree lies in its text.

A node stands at the position of its start, ends where its children have ended (`Subtree.Tidy`), and
every offset between the place where it was asked for and its end was examined by the node or by one
of those below it that stand around the offset (`Subtree.Sees`).  This is read off a derivation: what
it yields lies between its start and its end, and everything in between was either looked at on the
way or belongs to a node that it yields (`Derives.laid`).

For a whole document the offset at which the start rule has ended counts as well: somebody has looked
whether the text goes on (`Accepts.seen`).
-/

namespace Packrat

/-- A node stands at the position of its start, which lies in the text. -/
structure NodeInfo.Placed (src : Source) (i : NodeInfo) : Prop where
  position : (i.line, i.column) = src.position i.start
  start_le : i.start ≤ src.size

namespace Subtree

/-- Every node is placed and ends where its children have ended. -/
inductive Tidy (src : Source) : Subtree → Prop
  | node {info : NodeInfo} {children : List Subtree} : info.Placed src →
      (∀ c ∈ children, c.info.stop ≤ info.stop) → (∀ c ∈ children, Tidy src c) →
      Tidy src (.node info children)

/-- Some node of the tree stands around the offset and has examined it. -/
def Sees (t : Subtree) (x : Nat) : Prop :=
  ∃ i ∈ t.nodes, i.reads.mem x ∧ i.invoked ≤ x ∧ x < i.stop

variable {src : Source} {t : Subtree}

theorem Tidy.placed (h : t.Tidy src) : ∀ i ∈ t.nodes, i.Placed src := by
  induction t using induct with
  | step info children ih =>
    cases h with
    | node hplaced _ hbelow =>
      intro i hi
      rcases mem_nodes_node.1 hi with rfl | ⟨c, hc, hi⟩
      · exact hplaced
      · exact ih c hc (hbelow c hc) i hi

/-- Depths do not matter. -/
theorem tidy_flat : t.flat.Tidy src ↔ t.Tidy src := by
  induction t using induct with
  | step info children ih =>
    rw [flat_node]
    have hstop : ∀ c : Subtree, c.flat.info.stop = c.info.stop := fun c => by rw [info_flat]; rfl
    constructor
    · rintro (⟨hplaced, hchildren, hbelow⟩)
      refine .node ⟨hplaced.position, hplaced.start_le⟩ (fun c hc => ?_) fun c hc => ?_
      · rw [← hstop c]
        exact hchildren c.flat (List.mem_map_of_mem hc)
      · exact (ih c hc).1 (hbelow c.flat (List.mem_map_of_mem hc))
    · rintro (⟨hplaced, hchildren, hbelow⟩)
      refine .node ⟨hplaced.position, hplaced.start_le⟩ ?_ ?_
      · intro c' hc'
        obtain ⟨c, hc, rfl⟩ := List.mem_map.1 hc'
        rw [hstop c]
        exact hchildren c hc
      · intro c' hc'
        obtain ⟨c, hc, rfl⟩ := List.mem_map.1 hc'
        exact (ih c hc).2 (hbelow c hc)

theorem sees_flat {x : Nat} : t.flat.Sees x ↔ t.Sees x := by
  simp only [Sees, nodes_flat, List.mem_map]
  constructor
  · rintro ⟨_, ⟨i, hi, rfl⟩, hx⟩
    exact ⟨i, hi, hx⟩
  · rintro ⟨i, hi, hx⟩
    exact ⟨_, ⟨i, hi, rfl⟩, hx⟩

end Subtree

namespace Parse

variable {ctx : Context} {g : Goal} {o m stop : Nat} {out : Outcome} {y : Yield} {tr tr' : List Event}

/-! ### What a match yields -/

/-- A piece lies in a stretch; a node does so with everything below it. -/
def Piece.Within (src : Source) (o stop : Nat) : Piece → Prop
  | .node _ tree => o ≤ tree.info.invoked ∧ tree.info.stop ≤ stop ∧ tree.Tidy src
      ∧ ∀ x, tree.info.invoked ≤ x → x < tree.info.stop → tree.Sees x
  | .text bytes a => o ≤ a ∧ a + bytes.length ≤ stop

/-- An event has looked at an offset itself. -/
def Event.Looked : Event → Nat → Prop
  | .saw l, x => l.start ≤ x ∧ x < l.stop
  | .took e, x => e.reads.mem x

/-- A match from `o` to `stop` yields what lies in between, and everything in between was looked at
or belongs to a node. -/
structure Laid (ctx : Context) (o stop : Nat) (y : Yield) (tr : List Event) : Prop where
  within : ∀ p ∈ y.pieces, p.Within ctx.source o stop
  looked : ∀ x, o ≤ x → x < stop → (∃ ev ∈ tr, ev.Looked x)
    ∨ ∃ n ∈ y.nodes, n.2.info.invoked ≤ x ∧ x < n.2.info.stop

theorem Piece.Within.mono {src : Source} {o' stop' : Nat} {p : Piece} (h : p.Within src o stop)
    (ho : o' ≤ o) (hstop : stop ≤ stop') : p.Within src o' stop' := by
  cases p with
  | node key tree => exact ⟨Nat.le_trans ho h.1, Nat.le_trans h.2.1 hstop, h.2.2⟩
  | text bytes a => exact ⟨Nat.le_trans ho h.1, Nat.le_trans h.2 hstop⟩

theorem Piece.Within.flat {src : Source} {p : Piece} (h : p.Within src o stop) :
    p.flat.Within src o stop := by
  cases p with
  | node key tree =>
    obtain ⟨h₁, h₂, h₃, h₄⟩ := h
    simp only [Piece.flat, Piece.Within, Subtree.info_flat, Subtree.tidy_flat, Subtree.sees_flat]
    exact ⟨h₁, h₂, h₃, h₄⟩
  | text bytes a => exact h

namespace Laid

theorem empty (o : Nat) (tr : List Event) : Laid ctx o o .empty tr :=
  ⟨by simp [Yield.empty, Yield.pieces], fun x h₁ h₂ => by omega⟩

theorem behind (h : Laid ctx o stop y tr') : Laid ctx o stop y (tr ++ tr') := by
  refine ⟨h.within, fun x h₁ h₂ => (h.looked x h₁ h₂).imp_left ?_⟩
  rintro ⟨ev, hev, hx⟩
  exact ⟨ev, List.mem_append_right _ hev, hx⟩

theorem append {ps : Array Piece} (h : Laid ctx o m y tr) (h' : Laid ctx m stop (.many ps) tr')
    (hom : o ≤ m) (hms : m ≤ stop) : Laid ctx o stop (.many (y.pieces ++ ps)) (tr ++ tr') := by
  have hnodes : (Yield.many (y.pieces ++ ps)).nodes = y.nodes ++ (Yield.many ps).nodes := by
    simp [Yield.nodes, Yield.pieces]
  refine ⟨fun p hp => ?_, fun x h₁ h₂ => ?_⟩
  · rcases Array.mem_append.1 hp with hp | hp
    · exact (h.within p hp).mono (Nat.le_refl _) hms
    · exact (h'.within p hp).mono hom (Nat.le_refl _)
  · rw [hnodes]
    simp only [List.mem_append, Array.mem_append, or_and_right, exists_or]
    rcases Nat.lt_or_ge x m with hlt | hge
    · exact (h.looked x h₁ hlt).imp .inl .inl
    · exact (h'.looked x hge h₂).imp .inr .inr

end Laid

/-! ### Nodes -/

theorem operatorLeaf?_tidy {depth : Nat} {bytes : Bytes} {c : Subtree}
    (h : operatorLeaf? ctx depth bytes o = some c) (ho : o ≤ ctx.source.size) :
    c.Tidy ctx.source ∧ c.info.stop = o + bytes.length := by
  rw [operatorLeaf?_eq_some h]
  exact ⟨.node ⟨rfl, ho⟩ (by simp) (by simp), rfl⟩

/-- A node around pieces that lie in front of its end. -/
theorem wrap_tidy {info : NodeInfo} (hplaced : info.Placed ctx.source)
    (hsize : info.stop ≤ ctx.source.size)
    (hwithin : ∀ p ∈ y.pieces, p.Within ctx.source o info.stop) :
    (y.wrap ctx info).Tidy ctx.source := by
  cases y with
  | one p =>
    have hp := hwithin p (by simp [Yield.pieces])
    cases p with
    | node key tree => exact .node hplaced (by simpa using hp.2.1) (by simpa using hp.2.2.1)
    | text bytes a => exact .node ⟨hplaced.position, hplaced.start_le⟩ (by simp) (by simp)
  | many ps =>
    have key : ∀ c ∈ ps.toList.filterMap (Piece.child? ctx info.depth),
        c.Tidy ctx.source ∧ c.info.stop ≤ info.stop := by
      intro c hc
      obtain ⟨p, hp, hchild⟩ := List.mem_filterMap.1 hc
      have hw := hwithin p (Array.mem_toList_iff.1 hp)
      cases p with
      | node key tree =>
        cases Option.some.inj hchild
        exact ⟨hw.2.2.1, hw.2.1⟩
      | text bytes a =>
        have := hw.2
        obtain ⟨htidy, hstop⟩ := operatorLeaf?_tidy hchild (by omega)
        exact ⟨htidy, by omega⟩
    exact .node hplaced (fun c hc => (key c hc).2) fun c hc => (key c hc).1

theorem Yield.wrap_info (ctx : Context) (info : NodeInfo) (y : Yield) :
    ∃ value, (y.wrap ctx info).info = { info with value } := by
  cases y with
  | one p =>
    cases p with
    | node key tree => exact ⟨_, rfl⟩
    | text bytes a => exact ⟨_, rfl⟩
  | many ps => exact ⟨_, rfl⟩

/-- The nodes that are yielded stand below the node around them. -/
theorem Yield.sees_wrap {info : NodeInfo} {n : Key × Subtree} (hn : n ∈ y.nodes) {x : Nat}
    (hx : n.2.Sees x) : (y.wrap ctx info).Sees x := by
  obtain ⟨info', children, heq, -, hnodes, -⟩ := y.wrap_eq ctx info
  obtain ⟨i, hi, h⟩ := hx
  rw [heq]
  exact ⟨i, Subtree.mem_nodes_node.2 (.inr ⟨n.2, hnodes n hn, hi⟩), h⟩

theorem Yield.mem_nodes {key : Key} {tree : Subtree} :
    (key, tree) ∈ y.nodes ↔ .node key tree ∈ y.pieces := by
  unfold Yield.nodes
  rw [Array.mem_filterMap]
  constructor
  · rintro ⟨p, hp, hnode⟩
    cases p with
    | node key' tree' => cases hnode; exact hp
    | text bytes a => cases hnode
  · exact fun h => ⟨_, h, rfl⟩

/-! ### Tokens and rules -/

/-- A token that is found has looked at everything up to its end. -/
theorem tokenResult_covers (ho : o ≤ ctx.source.size) {depth : Nat} {kind : TokenKind} {symbol : Nat}
    (h : (tokenResult ctx depth kind ⟨symbol, o⟩).outcome = .ok stop y) {x : Nat} (h₁ : o ≤ x)
    (h₂ : x < stop) : (tokenReads ctx kind o).mem x := by
  have hlinked := skipped_linked ho
  have hsize := hlinked.stop_le
  rw [(tokenReads_spec ctx kind o).2]
  rcases Nat.lt_or_ge x (skipped ctx o).1 with hlt | hge
  · obtain ⟨l, hl, hx⟩ := hlinked.covers h₁ hlt
    exact ⟨l, List.mem_append_left _ hl, hx⟩
  -- behind the ignored text it is the look of the token itself
  have key : ∀ {l : Look} {m : Nat}, tokenLook ctx.source.text (skipped ctx o).1 kind = [l] →
      l.Inside ctx.source.text (skipped ctx o).1 → l.reach = .upTo m → x < m →
      ∃ l ∈ tokenLooks ctx kind o, l.start ≤ x ∧ x < l.stop := by
    intro l m hlook hin hreach hlt
    have hstart := hin.start
    have hstop := (hin.upTo hreach).2.2
    exact ⟨l, List.mem_append_right _ (by rw [hlook]; simp), by omega, by omega⟩
  cases kind with
  | number =>
    obtain ⟨m, hreach, hfound⟩ := nodeResult_eq_ok h
    cases hfound
    exact key rfl (Scan.number_inside hsize) hreach h₂
  | string =>
    obtain ⟨m, hreach, hfound⟩ := nodeResult_eq_ok h
    cases hfound
    exact key rfl (Scan.quoted_inside hsize) hreach h₂
  | ident =>
    obtain ⟨m, hreach, hfound⟩ := nodeResult_eq_ok h
    cases hfound
    exact key rfl (Scan.identifier_inside hsize) hreach h₂
  | newline =>
    obtain ⟨m, hreach, hfound⟩ := scanned_eq_ok h
    cases hfound
    exact key rfl (Scan.newline_inside hsize) hreach h₂
  | endOfInput =>
    simp only [tokenResult] at h
    split at h
    · cases h
      exact key rfl (Scan.blanks_inside hsize) rfl h₂
    · cases h
  | indent => cases h
  | dedent => cases h

theorem token_laid (ho : o ≤ ctx.source.size) {kind : TokenKind}
    (h : (tokenEntryOf ctx kind o).outcome = .ok stop y) :
    Laid ctx o stop y [.took (tokenEntryOf ctx kind o)] := by
  have hstart := (skipped_linked ho).stop_le
  have hshape := tokenResult_shape ctx 0 kind ⟨tokenSymbol ctx kind, o⟩
  have hcovers : ∀ y x, (tokenResult ctx 0 kind ⟨tokenSymbol ctx kind, o⟩).outcome = .ok stop y →
      o ≤ x → x < stop → (tokenReads ctx kind o).mem x := fun y x h => tokenResult_covers ho h
  unfold tokenEntryOf at h ⊢
  generalize tokenResult ctx 0 kind ⟨tokenSymbol ctx kind, o⟩ = e at h hshape hcovers ⊢
  obtain ⟨y', hy', rfl⟩ := Outcome.flat_eq_ok h
  have hreads := fun x => hcovers y' x hy'
  cases hshape with
  | leaf info hinfo hinfostart hinvoked _ hposition =>
    cases hy'
    dsimp only at hinvoked hinfostart
    have hleaf : (Piece.node ⟨tokenSymbol ctx kind, o⟩ (.node info [])).Within ctx.source o
        info.stop := by
      refine ⟨Nat.le_of_eq hinvoked.symm, Nat.le_refl _, ?_, fun x h₁ h₂ => ?_⟩
      · exact .node ⟨hposition, by rw [hinfostart]; exact hstart⟩ (by simp) (by simp)
      · refine ⟨info, Subtree.info_mem_nodes _, ?_, h₁, h₂⟩
        rw [hinfo]
        exact hreads x (by rw [← hinvoked]; exact h₁) h₂
    refine ⟨?_, fun x h₁ h₂ => .inr ⟨(⟨tokenSymbol ctx kind, o⟩, (Subtree.node info []).flat), ?_, ?_, ?_⟩⟩
    · intro p hp
      rw [Yield.pieces_flat] at hp
      obtain ⟨q, hq, rfl⟩ := Array.mem_map.1 hp
      cases Array.mem_singleton.1 hq
      exact hleaf.flat
    · exact Yield.mem_nodes.2 (by simp [Yield.flat, Yield.pieces, Piece.flat])
    · rw [Subtree.info_flat]
      show info.invoked ≤ x
      rw [hinvoked]
      exact h₁
    · rw [Subtree.info_flat]
      exact h₂
  | bare stop' =>
    cases hy'
    refine ⟨by simp [Yield.flat, Yield.empty, Yield.pieces], fun x h₁ h₂ => .inl ?_⟩
    exact ⟨_, List.mem_singleton_self _, hreads x h₁ h₂⟩
  | fail => cases hy'

/-- What a trace has looked at stands in the frame of a rule, and in what is charged to the rule. -/
theorem mem_settle (htr : ∀ e, .took e ∈ tr → e.Proper ctx) {x : Nat}
    (h : (∃ l ∈ (skipped ctx o).2, l.start ≤ x ∧ x < l.stop) ∨ ∃ ev ∈ tr, ev.Looked x) (y : Yield) :
    ((ruleFrame ctx o tr).settle y).mem x := by
  obtain ⟨hordered, hreads, -⟩ := ruleFrame_spec (o := o) htr
  refine ((Frame.settle_spec hordered (fun n hn => (touched_proper htr hn).1) y).2 x).2 (.inl ?_)
  rw [hreads]
  rcases h with ⟨l, hl, hx⟩ | ⟨ev, hev, hx⟩
  · exact .inl ⟨l, List.mem_append_left _ (List.mem_map_of_mem hl), hx⟩
  · cases ev with
    | saw l => exact .inl ⟨l, List.mem_append_right _ hev, hx⟩
    | took e => exact .inr ⟨e, List.mem_append_right _ hev, hx⟩

theorem rule_laid (ho : o ≤ ctx.source.size) {id : Nat} {rule : Rule} {y' : Yield}
    (hd : Derives ctx (.expr rule.pattern) (skipped ctx o).1 (.ok stop y') tr)
    (hlaid : Laid ctx (skipped ctx o).1 stop y' tr)
    (h : (ruleEntryOf ctx id rule o (.ok stop y') tr).outcome = .ok stop y) :
    Laid ctx o stop y [.took (ruleEntryOf ctx id rule o (.ok stop y') tr)] := by
  have hlinked := skipped_linked ho
  have hstart := hlinked.le_stop
  have hsize := (hd.bounds hlinked.stop_le rfl).2
  have htr := hd.proper hlinked.stop_le
  have hwithin : ∀ p ∈ y'.pieces, p.Within ctx.source o stop :=
    fun p hp => (hlaid.within p hp).mono hstart (Nat.le_refl _)
  -- what no node stands around was looked at by the rule
  have hlooked : ∀ x, o ≤ x → x < stop → ((ruleFrame ctx o tr).settle y').mem x
      ∨ ∃ n ∈ y'.nodes, n.2.info.invoked ≤ x ∧ x < n.2.info.stop := by
    intro x h₁ h₂
    rcases Nat.lt_or_ge x (skipped ctx o).1 with hlt | hge
    · exact .inl (mem_settle htr (.inl (hlinked.covers h₁ hlt)) y')
    · exact (hlaid.looked x hge h₂).imp_left fun hev => mem_settle htr (.inr hev) y'
  rw [ruleEntryOf_eq] at h ⊢
  by_cases hfragment : rule.isFragment = true
  · rw [ruleResult_fragment hfragment] at h ⊢
    cases h
    refine ⟨?_, fun x h₁ h₂ => (hlooked x h₁ h₂).imp (fun hx => ?_) ?_⟩
    · intro p hp
      rw [Yield.pieces_flat] at hp
      obtain ⟨q, hq, rfl⟩ := Array.mem_map.1 hp
      exact (hwithin q hq).flat
    · exact ⟨_, List.mem_singleton_self _, hx⟩
    · rintro ⟨n, hn, hx⟩
      rw [Yield.nodes_flat]
      refine ⟨flatNode n, Array.mem_map_of_mem hn, ?_⟩
      rw [flatNode, Subtree.info_flat]
      exact hx
  · rw [ruleResult_node (by simpa using hfragment)] at h ⊢
    cases h
    generalize hinfo : ruleInfo ctx 0 rule ⟨id, o⟩ (skipped ctx o).1 stop
      ((ruleFrame ctx o tr).settle y') = info
    obtain ⟨value, hvalue⟩ := y'.wrap_info ctx info
    have hnode : (Piece.node ⟨id, o⟩ (y'.wrap ctx info)).Within ctx.source o stop := by
      simp only [Piece.Within, hvalue]
      subst hinfo
      refine ⟨Nat.le_refl o, Nat.le_refl stop, ?_, fun x h₁ h₂ => ?_⟩
      · exact wrap_tidy ⟨rfl, hlinked.stop_le⟩ hsize hwithin
      · rcases hlooked x h₁ h₂ with hx | ⟨n, hn, hx⟩
        · exact ⟨_, Subtree.info_mem_nodes _, by rw [hvalue]; exact hx, by rw [hvalue]; exact ⟨h₁, h₂⟩⟩
        · have hw := hlaid.within _ (Yield.mem_nodes.1 hn)
          exact Yield.sees_wrap hn (hw.2.2.2 x hx.1 hx.2)
    refine ⟨?_, fun x h₁ h₂ => .inr ⟨(⟨id, o⟩, (y'.wrap ctx info).flat), ?_, ?_⟩⟩
    · intro p hp
      rw [Yield.pieces_flat] at hp
      obtain ⟨q, hq, rfl⟩ := Array.mem_map.1 hp
      cases Array.mem_singleton.1 hq
      exact hnode.flat
    · exact Yield.mem_nodes.2 (by simp [Yield.flat, Yield.pieces, Piece.flat])
    · rw [Subtree.info_flat, hvalue]
      subst hinfo
      exact ⟨h₁, h₂⟩

/-! ### Derivations -/

/-- A scan for text behind ignored text that has found it. -/
theorem scan_laid {l : Look} {a : Nat} {bytes : Bytes} {looks : List Look}
    (hlinked : Scan.Linked ctx.source.text o looks a) (hin : l.Inside ctx.source.text a)
    (hreach : l.reach = .upTo m) (hlength : a + bytes.length = m) :
    Laid ctx o m (.one (.text bytes a)) (looks.map Event.saw ++ [.saw l]) := by
  obtain ⟨h₁, -, h₂⟩ := hin.upTo hreach
  refine ⟨?_, fun x hx hxm => .inl ?_⟩
  · intro p hp
    cases Array.mem_singleton.1 hp
    exact ⟨hlinked.le_stop, Nat.le_of_eq hlength⟩
  · rcases Nat.lt_or_ge x a with hlt | hge
    · obtain ⟨l', hl', hx'⟩ := hlinked.covers hx hlt
      exact ⟨_, List.mem_append_left _ (List.mem_map_of_mem hl'), hx'⟩
    · refine ⟨_, List.mem_append_right _ (List.mem_singleton_self _), ?_, ?_⟩
      · rw [hin.start]; exact hge
      · omega

theorem byte_laid (ho : o ≤ ctx.source.size) {inside : UInt8 → Bool}
    (hreach : (Scan.byte ctx.source.text inside o).reach = .upTo m) :
    Laid ctx o m (.one (.text (ctx.source.slice o m) o))
      [.saw (Scan.byte ctx.source.text inside o)] := by
  have hin := Scan.byte_inside ho inside
  have hb := hin.upTo hreach
  refine scan_laid (.nil ho) hin hreach ?_
  rw [length_slice hb.1 hb.2.1]
  omega

/-- What a derivation yields lies between its start and its end, and everything in between was
looked at or belongs to a node. -/
theorem Derives.laid (h : Derives ctx g o out tr) (ho : o ≤ ctx.source.size)
    (hout : out = .ok stop y) : Laid ctx o stop y tr := by
  induction h generalizing stop y with
  | @literal label text o out l hl hres =>
    obtain ⟨m, hreach, hfound⟩ := scanned_eq_ok (hres.symm.trans hout)
    cases hfound
    have hlinked := skipped_linked ho
    subst hl
    exact scan_laid hlinked (Scan.literal_inside hlinked.stop_le text (isWord text)) hreach
      (literal_upTo hreach)
  | charClass hl hres =>
    obtain ⟨m, hreach, hfound⟩ := scanned_eq_ok (hres.symm.trans hout)
    cases hfound
    subst hl
    exact byte_laid ho hreach
  | anyByte hl hres =>
    obtain ⟨m, hreach, hfound⟩ := scanned_eq_ok (hres.symm.trans hout)
    cases hfound
    subst hl
    exact byte_laid ho hreach
  | ruleAtom _ ih => exact ih ho hout
  | tokenAtom _ ih => exact ih ho hout
  | star _ ih => exact ih ho hout
  | plus _ _ ih => exact ih ho hout
  | plus_fail _ _ => cases hout
  | option _ ih => exact ih ho hout
  | option_fail _ _ => cases hout; exact .empty _ _
  | ahead _ _ => cases hout; exact .empty _ _
  | ahead_fail _ _ => cases hout
  | notAhead _ _ => cases hout
  | notAhead_fail _ _ => cases hout; exact .empty _ _
  | many_fail _ _ => cases hout; exact .empty _ _
  | many_stay _ _ => cases hout; exact .empty _ _
  | many_more hd _ hds ih ihs =>
    cases hout
    have hb := hd.bounds ho rfl
    exact (ih ho rfl).append (ihs hb.2 rfl) hb.1 (hds.bounds hb.2 rfl).1
  | seq _ ih => exact ih ho hout
  | seq_nil => cases hout; exact .empty _ _
  | seq_fail _ _ => cases hout
  | seq_stop _ _ _ _ => cases hout
  | seq_cons hd hds ih ihs =>
    cases hout
    have hb := hd.bounds ho rfl
    exact (ih ho rfl).append (ihs hb.2 rfl) hb.1 (hds.bounds hb.2 rfl).1
  | choice _ ih => exact ih ho hout
  | choice_nil => cases hout
  | choice_first _ ih => exact ih ho hout
  | choice_next _ _ _ ihs => exact (ihs ho hout).behind
  | name_rule _ _ ih => exact ih ho hout
  | name_token _ _ _ _ ih => exact ih ho hout
  | name_fail _ _ => cases hout
  | @rule id rule o out tr res entry _ hd hentry hres ih =>
    change entry = ruleEntryOf ctx id rule o out tr at hentry
    subst hentry hres
    obtain ⟨y', hy', -⟩ := Outcome.flat_eq_ok hout
    obtain ⟨y'', rfl⟩ := ruleResult_eq_ok hy'
    exact rule_laid ho hd (ih (skipped_linked ho).stop_le rfl) hout
  | @token kind o res entry hentry hres =>
    change entry = tokenEntryOf ctx kind o at hentry
    subst hentry hres
    exact token_laid ho hout

/-- Looks that are linked stay in the text and its end. -/
theorem saw_le {looks : List Look} {a : Nat} (h : Scan.Linked ctx.source.text o looks a) :
    ∀ ev ∈ looks.map Event.saw, ∀ x, ev.Examined x → x ≤ ctx.source.size := by
  intro ev hev x hx
  obtain ⟨l, hl, rfl⟩ := List.mem_map.1 hev
  have h₁ := (h.inside hl).2.stop_le
  have h₂ := hx.2
  show x ≤ ctx.source.text.size
  omega

theorem saw_inside_le {l : Look} (h : l.Inside ctx.source.text o) :
    ∀ ev ∈ [Event.saw l], ∀ x, ev.Examined x → x ≤ ctx.source.size := by
  intro ev hev x hx
  cases List.mem_singleton.1 hev
  have h₁ := h.stop_le
  have h₂ := hx.2
  show x ≤ ctx.source.text.size
  omega

theorem tokenLook_inside (ho : o ≤ ctx.source.size) (kind : TokenKind) :
    ∀ l ∈ tokenLook ctx.source.text o kind, l.Inside ctx.source.text o := by
  cases kind with
  | number => simpa [tokenLook] using Scan.number_inside ho
  | string => simpa [tokenLook] using Scan.quoted_inside ho
  | ident => simpa [tokenLook] using Scan.identifier_inside ho
  | newline => simpa [tokenLook] using Scan.newline_inside ho
  | endOfInput => simpa [tokenLook] using Scan.blanks_inside ho
  | indent => simp [tokenLook]
  | dedent => simp [tokenLook]

/-- Nothing behind the end of the text is examined. -/
theorem Derives.examined_le (h : Derives ctx g o out tr) (ho : o ≤ ctx.source.size) :
    ∀ ev ∈ tr, ∀ x, ev.Examined x → x ≤ ctx.source.size := by
  have both : ∀ {tr tr' : List Event}, (∀ ev ∈ tr, ∀ x, ev.Examined x → x ≤ ctx.source.size) →
      (∀ ev ∈ tr', ∀ x, ev.Examined x → x ≤ ctx.source.size) →
      ∀ ev ∈ tr ++ tr', ∀ x, ev.Examined x → x ≤ ctx.source.size :=
    fun h₁ h₂ ev hev => (List.mem_append.1 hev).elim (h₁ ev) (h₂ ev)
  induction h with
  | @literal label text o out l hl _ =>
    have hlinked := skipped_linked ho
    subst hl
    exact both (saw_le hlinked) (saw_inside_le (Scan.literal_inside hlinked.stop_le text (isWord text)))
  | @charClass label c o out l hl _ => subst hl; exact saw_inside_le (Scan.byte_inside ho c.accepts)
  | anyByte hl _ => subst hl; exact saw_inside_le (Scan.byte_inside ho fun _ => true)
  | ruleAtom _ ih => exact ih ho
  | tokenAtom _ ih => exact ih ho
  | star _ ih => exact ih ho
  | plus _ _ ih => exact ih ho
  | plus_fail _ ih => exact ih ho
  | option _ ih => exact ih ho
  | option_fail _ ih => exact ih ho
  | ahead _ ih => exact ih ho
  | ahead_fail _ ih => exact ih ho
  | notAhead _ ih => exact ih ho
  | notAhead_fail _ ih => exact ih ho
  | many_fail _ ih => exact ih ho
  | many_stay _ ih => exact ih ho
  | many_more hd _ _ ih ihs => exact both (ih ho) (ihs (hd.bounds ho rfl).2)
  | seq _ ih => exact ih ho
  | seq_nil => simp
  | seq_fail _ ih => exact ih ho
  | seq_stop hd _ ih ihs => exact both (ih ho) (ihs (hd.bounds ho rfl).2)
  | seq_cons hd _ ih ihs => exact both (ih ho) (ihs (hd.bounds ho rfl).2)
  | choice _ ih => exact ih ho
  | choice_nil => simp
  | choice_first _ ih => exact ih ho
  | choice_next _ _ ih ihs => exact both (ih ho) (ihs ho)
  | name_rule _ _ ih => exact ih ho
  | name_token _ _ _ _ ih => exact ih ho
  | name_fail _ _ => simp
  | @rule id rule o out tr res entry _ hd hentry _ ih =>
    intro ev hev x hx
    cases List.mem_singleton.1 hev
    change entry = ruleEntryOf ctx id rule o out tr at hentry
    rw [hentry, hd.examined_rule ho] at hx
    obtain ⟨ev, hev, hx⟩ := hx
    exact both (saw_le (skipped_linked ho)) (ih (skipped_linked ho).stop_le) ev hev x hx
  | @token kind o res entry hentry _ =>
    intro ev hev x hx
    cases List.mem_singleton.1 hev
    change entry = tokenEntryOf ctx kind o at hentry
    rw [hentry, examined_token] at hx
    obtain ⟨l, hl, hx⟩ := hx
    have hlinked := skipped_linked ho
    rcases List.mem_append.1 hl with hl | hl
    · exact saw_le hlinked _ (List.mem_map_of_mem hl) x hx
    · exact saw_inside_le (tokenLook_inside hlinked.stop_le kind l hl) _ (List.mem_singleton_self _) x hx

/-! ### Documents -/

theorem restOf_linked (ho : o ≤ ctx.source.size) :
    Scan.Linked ctx.source.text o (restOf ctx o).2 (restOf ctx o).1 := by
  unfold restOf
  split
  · exact skipped_linked ho
  · have hin := Scan.blanks_inside ho
    obtain ⟨h₁, h₂, h₃⟩ := hin.upTo rfl
    exact .cons hin h₁ h₃ (.nil h₂)

/-- Skipping begins with a look for blanks. -/
theorem blanks_mem_ignoredLooks (t : Text) (cs : List Comment) (o : Nat) :
    Scan.blanks t o ∈ (Scan.ignoredLooks t cs o).2 := by
  unfold Scan.ignoredLooks
  rw [Scan.ignoredWithin]
  dsimp only
  split <;> simp [Scan.ignoredRound, Scan.Pass.behind]

/-- Where the start rule ends, somebody looks whether the text goes on. -/
theorem restOf_looked (ho : o ≤ ctx.source.size) :
    ∃ l ∈ (restOf ctx o).2, l.start ≤ o ∧ o < l.stop := by
  have hin := Scan.blanks_inside ho
  refine ⟨Scan.blanks ctx.source.text o, ?_, Nat.le_of_eq hin.start, ?_⟩
  · unfold restOf
    by_cases hskip : ctx.grammar.skipsIgnored = true
    · rw [if_pos hskip, skipped, if_pos hskip]
      exact blanks_mem_ignoredLooks _ _ _
    · rw [if_neg hskip]
      exact List.mem_singleton_self _
  · have h₁ := Text.le_scanWhile ctx.source.text Byte.isBlank o
    have h₂ : o ≤ ctx.source.text.size := ho
    show o < min (_ + 1) (_ + 1)
    omega

/-- The root of a document: the one node that the start yields, or a node around its yield. -/
theorem rootOf_eq (ctx : Context) (stop : Nat) (y : Yield) :
    (∃ key tree, y = .one (.node key tree) ∧ Parser.rootOf ctx stop y = tree)
      ∨ Parser.rootOf ctx stop y = y.wrap ctx (programInfo ctx stop) := by
  cases y with
  | one p =>
    cases p with
    | node key tree => exact .inl ⟨key, tree, rfl, rfl⟩
    | text bytes a => exact .inr rfl
  | many ps => exact .inr rfl

/-- The root is made of the nodes of the yield, and adds nothing to what they have examined. -/
theorem rootOf_spec (hlaid : Laid ctx o stop y tr) (hstop : stop ≤ ctx.source.size) :
    (Parser.rootOf ctx stop y).Tidy ctx.source ∧ (Parser.rootOf ctx stop y).info.stop ≤ stop
      ∧ ((∀ n ∈ y.nodes, n.2.Orderly) → (Parser.rootOf ctx stop y).Orderly)
      ∧ (∀ x, (Parser.rootOf ctx stop y).Examined x → ∃ n ∈ y.nodes, n.2.Examined x)
      ∧ ∀ n ∈ y.nodes, ∀ x, n.2.Sees x → (Parser.rootOf ctx stop y).Sees x := by
  rcases rootOf_eq ctx stop y with ⟨key, tree, rfl, hroot⟩ | hroot
  · rw [hroot]
    have hw := hlaid.within (.node key tree) (by simp [Yield.pieces])
    have hone : ∀ n, n ∈ (Yield.one (.node key tree)).nodes ↔ n = (key, tree) := by
      simp [Yield.nodes, Yield.pieces, Piece.node?]
    simp only [hone, forall_eq, exists_eq_left]
    exact ⟨hw.2.2.1, hw.2.1, id, fun _ => id, fun _ => id⟩
  · rw [hroot]
    obtain ⟨value, hvalue⟩ := y.wrap_info ctx (programInfo ctx stop)
    refine ⟨wrap_tidy ⟨rfl, Nat.zero_le _⟩ hstop hlaid.within, by rw [hvalue]; exact Nat.le_refl stop,
      Yield.orderly_wrap Footprint.ordered_empty, fun x hx => ?_, fun n hn x => Yield.sees_wrap hn⟩
    exact (Yield.examined_wrap.1 hx).elim (fun hx => absurd hx Footprint.not_mem_empty) id

/-- The tree of a document lies in its text, and up to its end everything was examined: by a node that
stands around it, or outside of all nodes. -/
structure Settled (src : Source) (root : Subtree) (reads : Footprint) : Prop where
  tidy : root.Tidy src
  stop_le : root.info.stop ≤ src.size
  orderly : root.Orderly
  examined_le : ∀ x, root.Examined x → x ≤ src.size
  ordered : reads.Ordered
  reads_le : ∀ x, reads.mem x → x ≤ src.size
  seen : ∀ x, x ≤ root.info.stop → reads.mem x ∨ root.Sees x

theorem Accepts.settled {start : Bytes} {root : Subtree} {reads : Footprint}
    (h : Accepts ctx start root reads) : Settled ctx.source root reads := by
  obtain ⟨stop, y, tr, hd, -, rfl, rfl⟩ := h
  have hzero : 0 ≤ ctx.source.size := Nat.zero_le _
  have hlaid := hd.laid hzero rfl
  have hstop := (hd.bounds hzero rfl).2
  have hproper := hd.proper hzero
  have hrest := restOf_linked hstop
  -- the frame of the document
  have htook : ∀ e, .took e ∈ tr ++ (restOf ctx stop).2.map Event.saw → .took e ∈ tr := by
    intro e he
    rcases List.mem_append.1 he with he | he
    · exact he
    · simp at he
  have hle : ∀ ev ∈ tr ++ (restOf ctx stop).2.map Event.saw, ∀ x, ev.Examined x →
      x ≤ ctx.source.size := by
    intro ev hev
    exact (List.mem_append.1 hev).elim (hd.examined_le hzero ev) (saw_le hrest ev)
  obtain ⟨hframe, hmem, htouched⟩ := Frame.after_spec (f := {}) Footprint.ordered_empty
    fun e he => (hproper e (htook e he)).toOrderly
  generalize Frame.after {} (tr ++ (restOf ctx stop).2.map Event.saw) = frame at hframe hmem htouched ⊢
  have hnodes : ∀ n ∈ frame.touched, ∃ e, .took e ∈ tr ∧ n ∈ e.outcome.nodes := by
    intro n hn
    rcases (htouched n).1 hn with hn | ⟨e, he, hn⟩
    · simp at hn
    · exact ⟨e, htook e he, hn⟩
  obtain ⟨hsettle, hsettlemem⟩ := Frame.settle_spec hframe
    (fun n hn => by obtain ⟨e, he, hmem⟩ := hnodes n hn; exact (hproper e he).nodes n hmem) y
  have hlooked : ∀ x, (∃ ev ∈ tr ++ (restOf ctx stop).2.map Event.saw, ev.Looked x) →
      (frame.settle y).mem x := by
    rintro x ⟨ev, hev, hx⟩
    refine (hsettlemem x).2 (.inl ((hmem x).2 (.inr ?_)))
    cases ev with
    | saw l => exact .inl ⟨l, hev, hx⟩
    | took e => exact .inr ⟨e, hev, hx⟩
  -- the nodes of the yield are among those that were taken over
  have hyield : ∀ n ∈ y.nodes, ∃ e, .took e ∈ tr ∧ n ∈ e.outcome.nodes := fun n hn =>
    hd.nodes_took (show n ∈ (Outcome.ok stop y).nodes from hn)
  obtain ⟨htidy, hrootstop, horderly, hexamined, hsees⟩ := rootOf_spec hlaid hstop
  refine ⟨Subtree.tidy_flat.2 htidy, ?_, ?_, ?_, hsettle, ?_, ?_⟩
  · rw [Subtree.info_flat]
    exact Nat.le_trans hrootstop hstop
  · rw [Subtree.orderly_flat]
    refine horderly fun n hn => ?_
    obtain ⟨e, he, hmem⟩ := hyield n hn
    exact (hproper e he).nodes n hmem
  · intro x hx
    rw [Subtree.examined_flat] at hx
    obtain ⟨n, hn, hx⟩ := hexamined x hx
    obtain ⟨e, he, hmem⟩ := hyield n hn
    exact hd.examined_le hzero _ he x (.inr ⟨n, hmem, hx⟩)
  · intro x hx
    rcases (hsettlemem x).1 hx with hx | ⟨n, hn, -, hx⟩
    · rcases (hmem x).1 hx with hx | ⟨l, hl, hx⟩ | ⟨e, he, hx⟩
      · exact absurd hx Footprint.not_mem_empty
      · exact hle _ hl x hx
      · exact hle _ he x (.inl hx)
    · obtain ⟨e, he, hmem⟩ := hnodes n hn
      exact hd.examined_le hzero _ he x (.inr ⟨n, hmem, hx⟩)
  · intro x hx
    rw [Subtree.info_flat] at hx
    have hx : x ≤ stop := Nat.le_trans hx hrootstop
    rw [Subtree.sees_flat]
    rcases Nat.lt_or_ge x stop with hlt | hge
    · rcases hlaid.looked x (Nat.zero_le _) hlt with ⟨ev, hev, hx⟩ | ⟨n, hn, h₁, h₂⟩
      · exact .inl (hlooked x ⟨ev, List.mem_append_left _ hev, hx⟩)
      · have hw := hlaid.within _ (Yield.mem_nodes.1 hn)
        exact .inr (hsees n hn x (hw.2.2.2 x h₁ h₂))
    · obtain rfl : x = stop := by omega
      obtain ⟨l, hl, hx⟩ := restOf_looked hstop
      exact .inl (hlooked x ⟨_, List.mem_append_right _ (List.mem_map_of_mem hl), hx⟩)

end Parse

end Packrat
