import Packrat.Proofs.Parse.Around

/-!
Matches across an edit.

A node is matched anew after an edit (`Parse.Patch`), and nothing else is.  Here the rest of the parse
is followed into the edited text.  A look that was taken on one side of the edit sees the same there
(`Patch.Sound.agrees`), so ignored text, literals, classes and tokens are found again; the rule of the old
node gives the new one (`Patch.Sound.again_old`); and everything else is put together from these.  So a
derivation that has looked at the edit only inside of the old node is found again as a whole
(`Patch.Sound.again`), and if a document was accepted with such a derivation, so is the edited one
(`Patch.Sound.accepts`).

A match must move on in the edited text if it did before, or a repetition would end early.  This is where
the new node has to have an extent (`Patch.Sound.carry_eq_iff`).
-/

namespace Packrat

namespace Parse

namespace Patch

variable {p : Patch} {ctx : Context} {src' : Source} {d : Int} {g : Goal} {o stop x : Nat} {l l' : Look}
  {looks : List Look} {out : Outcome} {y : Yield} {tr : List Event}

/-! ### Looks on one side of the edit -/

/-- A clean look stays on the side of the edit on which it starts. -/
theorem Side.look (h : p.Side d l.start) (hclean : p.Clean (.saw l)) (h₁ : l.start ≤ x)
    (h₂ : x ≤ l.stop) : p.Side d x := by
  rcases h with ⟨rfl, h⟩ | ⟨rfl, h⟩
  · refine .inl ⟨rfl, ?_⟩
    by_contra hlt
    exact hclean.offset ⟨h, by omega⟩
  · exact .inr ⟨rfl, Nat.le_trans h h₁⟩

theorem Side.linked {t : Text} (ho : p.Side d o) (h : Scan.Linked t o looks stop)
    (hclean : ∀ l ∈ looks, p.Clean (.saw l)) : p.Side d stop ∧ ∀ l ∈ looks, p.Side d l.start := by
  induction h with
  | nil => exact ⟨ho, by simp⟩
  | @cons o m stop l looks hin hom hle _ ih =>
    have hl : p.Side d l.start := hin.start.symm ▸ ho
    have hm := hl.look (hclean l List.mem_cons_self) (hin.start.symm ▸ hom) hle
    obtain ⟨hstop, hlooks⟩ := ih hm fun l' hl' => hclean l' (List.mem_cons_of_mem _ hl')
    exact ⟨hstop, List.forall_mem_cons.2 ⟨hl, hlooks⟩⟩

section Sound

variable (hp : p.Sound ctx src')

include hp

/-- The edited text shows the same to a clean look. -/
theorem Sound.agrees (h : p.Side d l.start) (hclean : p.Clean (.saw l)) :
    LookAgrees d ctx.source.text src'.text l := by
  have h₁ := hp.offset_lt
  have h₂ := hp.le_stop
  intro x hx hx' x' hmoved
  unfold Offset.MovedBy at hmoved
  rw [hp.text]
  rcases h with ⟨rfl, h⟩ | ⟨rfl, h⟩
  · have hlt : x < p.edit.offset := by
      by_contra hge
      exact hclean.offset ⟨h, by omega⟩
    obtain rfl : x' = x := by omega
    exact Edit.shows_before hp.fits.le_size hlt
  · rw [hp.fits.delta_eq] at hmoved
    obtain rfl : x' = x - p.edit.oldLength + p.edit.newLength := by omega
    exact Edit.shows_behind hp.fits.le_size (by omega)

theorem Sound.saw (h : p.Side d l.start) (hclean : p.Clean (.saw l))
    (hstop : l.stop ≤ ctx.source.size + 1) (hmoved : l.MovedBy d l') :
    p.Follows (.saw l) (.saw l') := by
  have h₁ := hmoved.start
  have h₂ := hmoved.stop
  unfold Offset.MovedBy at h₁ h₂
  have hcarry : ∀ x, l.start ≤ x → x < l.stop → Offset.MovedBy d x (p.edit.carry x) := fun x hx hx' =>
    hp.moved (h.look hclean hx (Nat.le_of_lt hx')) (by omega)
  refine .saw fun z => ⟨fun ⟨hz, hz'⟩ => ?_, ?_⟩
  · have := hcarry ((z : Int) - d).toNat (by omega) (by omega)
    unfold Offset.MovedBy at this
    exact ⟨((z : Int) - d).toNat, ⟨by omega, by omega⟩, by omega⟩
  · rintro ⟨x, ⟨hx, hx'⟩, rfl⟩
    have := hcarry x hx hx'
    unfold Offset.MovedBy at this
    exact ⟨by omega, by omega⟩

/-- Looks one behind the other follow each other in the edited text. -/
theorem Sound.saw_all (h : Scan.Linked ctx.source.text o looks stop) (ho : p.Side d o)
    (hclean : ∀ l ∈ looks, p.Clean (.saw l)) {looks' : List Look}
    (hmoved : List.Forall₂ (Look.MovedBy d) looks looks') :
    List.Forall₂ p.Follows (looks.map .saw) (looks'.map .saw) := by
  have hside := (ho.linked h hclean).2
  rw [List.forall₂_map_left_iff, List.forall₂_map_right_iff]
  have hall : ∀ l ∈ looks, p.Side d l.start ∧ p.Clean (.saw l) ∧ l.stop ≤ ctx.source.size + 1 :=
    fun l hl => ⟨hside l hl, hclean l hl, (h.inside hl).2.stop_le⟩
  clear h hclean hside
  induction hmoved with
  | nil => exact .nil
  | @cons l l' looks looks' hl _ ih =>
    obtain ⟨⟨h₁, h₂, h₃⟩, hrest⟩ := List.forall_mem_cons.1 hall
    exact .cons (hp.saw h₁ h₂ h₃ hl) (ih hrest)

/-- Ignored text is skipped again. -/
theorem Sound.skip (ho : o ≤ ctx.source.size) (hside : p.Side d o)
    (hclean : ∀ l ∈ (skipped ctx o).2, p.Clean (.saw l)) :
    p.Side d (skipped ctx o).1
      ∧ (skipped (ctx.on src') (p.edit.carry o)).1 = p.edit.carry (skipped ctx o).1
      ∧ List.Forall₂ p.Follows ((skipped ctx o).2.map .saw)
          ((skipped (ctx.on src') (p.edit.carry o)).2.map .saw) := by
  have hlinked := skipped_linked ho
  obtain ⟨hstart, hlooks⟩ := hside.linked hlinked hclean
  obtain ⟨hplace, hmoved⟩ := skipped_moved hp.comments ho (hp.place hside ho) fun l hl =>
    hp.agrees (hlooks l hl) (hclean l hl)
  refine ⟨hstart, hp.eq_carry hstart (Nat.le_succ_of_le hlinked.stop_le) hplace.1, ?_⟩
  exact hp.saw_all hlinked hside hclean hmoved

/-! ### Texts -/

/-- A text that is found again. -/
theorem Sound.text_turns {start : Nat} {bytes : Nat → Bytes} {out' : Outcome}
    (hin : l.Inside ctx.source.text start) (hside : p.Side d start) (hclean : p.Clean (.saw l))
    (hlength : ∀ stop, l.reach = .upTo stop → start + (bytes stop).length = stop)
    (h : (scanned l fun stop => .ok stop (.one (.text (bytes stop) start))).MovedBy d src' out') :
    p.OutcomeTurns (scanned l fun stop => .ok stop (.one (.text (bytes stop) start))) out' := by
  have hl : p.Side d l.start := hin.start.symm ▸ hside
  by_cases hreach : ∃ stop, l.reach = .upTo stop
  · -- the text ends where the look does, on the same side of the edit
    obtain ⟨stop, hreach⟩ := hreach
    obtain ⟨h₁, h₂, h₃⟩ := hin.upTo hreach
    have hstop : p.Side d stop := hl.look hclean (by rw [hin.start]; exact h₁) h₃
    have hlen := hlength stop hreach
    simp only [scanned, hreach] at h ⊢
    cases h with
    | ok hmoved hy =>
      cases hy with
      | one hpiece =>
        cases hpiece with
        | text hstart hend =>
          rw [hlen] at hend
          refine .ok (hp.eq_carry hstop (Nat.le_succ_of_le h₂) hmoved.1) (.one (.text ?_ ?_))
          · exact hp.eq_carry hside (Nat.le_trans h₁ (Nat.le_succ_of_le h₂)) hstart.1
          · rw [hlen]
            exact hp.eq_carry hstop (Nat.le_succ_of_le h₂) hend.1
  · push Not at hreach
    rw [scanned_fail hreach] at h ⊢
    cases h
    exact .fail

end Sound

/-! ### Tokens -/

/-- A match that has looked at everything up to its end ends on the side of the edit on which it
starts. -/
theorem Side.of_covers (hside : p.Side d o) (hle : o ≤ stop) {S : Nat → Prop} (hmisses : p.edit.Misses S)
    (hcovers : ∀ x, o ≤ x → x < stop → S x) : p.Side d stop := by
  rcases hside with ⟨hd, h⟩ | ⟨hd, h⟩
  · refine .inl ⟨hd, ?_⟩
    by_contra hlt
    exact hmisses.offset (hcovers _ h (by omega))
  · exact .inr ⟨hd, Nat.le_trans h hle⟩

section Sound

variable (hp : p.Sound ctx src')

include hp

theorem Sound.reads_take {f f' : Footprint} (h : f.MovedBy d f')
    (hside : ∀ x, f.mem x → p.Side d x ∧ x ≤ ctx.source.size) : p.edit.Takes f.mem f'.mem := by
  intro z
  constructor
  · intro hz
    obtain ⟨x, hx, hmoved⟩ := h.exists_mem hz
    obtain ⟨hd, hle⟩ := hside x hx
    exact ⟨x, hx, (hp.eq_carry hd (Nat.le_succ_of_le hle) hmoved).symm⟩
  · rintro ⟨x, hx, rfl⟩
    obtain ⟨hd, hle⟩ := hside x hx
    exact (h.mem_iff (hp.moved hd (Nat.le_succ_of_le hle))).2 hx

/-- What a clean token has looked at is clean. -/
theorem Sound.token_looks {kind : TokenKind} (hclean : p.Clean (.took (tokenEntryOf ctx kind o))) :
    p.edit.Misses (tokenReads ctx kind o).mem ∧ ∀ l ∈ tokenLooks ctx kind o, p.Clean (.saw l) := by
  have hmisses : p.edit.Misses (Event.took (tokenEntryOf ctx kind o)).Examined := by
    obtain ⟨hreads, hnodes⟩ := hclean
    rintro x h₁ h₂ (hx | ⟨n, hn, hx⟩)
    · exact hreads x h₁ h₂ hx
    · have hn' := hn
      obtain ⟨m, hm, rfl⟩ := mem_nodes_flat.1 hn
      have hshape := tokenResult_shape ctx 0 kind ⟨tokenSymbol ctx kind, o⟩
      generalize tokenResult ctx 0 kind ⟨tokenSymbol ctx kind, o⟩ = e at hm hshape
      cases hshape with
      | leaf info _ _ _ hrule _ =>
        rw [Outcome.nodes_one] at hm
        cases Array.mem_singleton.1 hm
        have hshields := hnodes _ hn'
        rw [flatNode, Subtree.flat_node] at hshields hx
        have hmisses := (hp.shields_node hshields fun h => by cases hrule.symm.trans h.1).1
        rcases Subtree.examined_node.1 hx with hx | ⟨c, hc, -⟩
        · exact hmisses x h₁ h₂ hx
        · cases hc
      | bare stop => simp [Outcome.nodes, Yield.nodes, Yield.empty, Yield.pieces] at hm
      | fail => simp [Outcome.nodes] at hm
  refine ⟨hmisses.mono fun x hx => ?_, fun l hl => hmisses.mono fun x hx => ?_⟩
  · exact (examined_token kind x).2 (((tokenReads_spec ctx kind o).2 x).1 hx)
  · exact (examined_token kind x).2 ⟨l, hl, hx⟩

/-- A leaf whose places all lie on one side of the edit is carried along. -/
theorem Sound.leaf_turns {info info' : NodeInfo} (hmoved : info.MovedBy d info') (hrule : info.rule = none)
    (hstart : p.Side d info.start ∧ info.start ≤ ctx.source.size)
    (hstop : p.Side d info.stop ∧ info.stop ≤ ctx.source.size)
    (hinvoked : p.Side d info.invoked ∧ info.invoked ≤ ctx.source.size)
    (hreads : ∀ x, info.reads.mem x → p.Side d x ∧ x ≤ ctx.source.size) :
    p.Turns (.node info []) (.node info' []) := by
  have hcarry : ∀ {x x'}, p.Side d x ∧ x ≤ ctx.source.size → Offset.MovedBy d x x' →
      x' = p.edit.carry x := fun h => hp.eq_carry h.1 (Nat.le_succ_of_le h.2)
  exact .node ⟨hmoved.type, hmoved.value, hcarry hstart hmoved.start, hcarry hstop hmoved.stop,
    hcarry hinvoked hmoved.invoked, hmoved.rule, hp.reads_take hmoved.reads hreads⟩
    (fun h => by cases hrule.symm.trans h.1) .nil

/-- A token is found again. -/
theorem Sound.token (ho : o ≤ ctx.source.size) (hside : p.Side d o) (kind : TokenKind)
    (hclean : p.Clean (.took (tokenEntryOf ctx kind o))) :
    p.Follows (.took (tokenEntryOf ctx kind o))
      (.took (tokenEntryOf (ctx.on src') kind (p.edit.carry o))) := by
  have hlinked := skipped_linked ho
  obtain ⟨hmisses, hlooks⟩ := hp.token_looks hclean
  obtain ⟨hstart, hskipped⟩ := hside.linked hlinked fun l hl => hlooks l (List.mem_append_left _ hl)
  have hin : ∀ l ∈ tokenLooks ctx kind o, p.Side d l.start ∧ l.stop ≤ ctx.source.size + 1 := by
    intro l hl
    rcases List.mem_append.1 hl with hl | hl
    · exact ⟨hskipped l hl, (hlinked.inside hl).2.stop_le⟩
    · have hinside := tokenLook_inside hlinked.stop_le kind l hl
      exact ⟨hinside.start.symm ▸ hstart, hinside.stop_le⟩
  -- whatever the token has looked at lies on one side of the edit
  have hreads : ∀ x, (tokenReads ctx kind o).mem x → p.Side d x ∧ x ≤ ctx.source.size := by
    intro x hx
    obtain ⟨l, hl, h₁, h₂⟩ := ((tokenReads_spec ctx kind o).2 x).1 hx
    obtain ⟨hl', hstop⟩ := hin l hl
    exact ⟨hl'.look (hlooks l hl) h₁ (Nat.le_of_lt h₂), by omega⟩
  have hmoved : Entry.MovedBy d src' (tokenResult ctx 0 kind ⟨tokenSymbol ctx kind, o⟩)
      (tokenResult (ctx.on src') 0 kind ⟨tokenSymbol ctx kind, p.edit.carry o⟩) :=
    tokenResult_moved hp.comments ho (hp.place hside ho) fun l hl =>
      hp.agrees (hin l hl).1 (hlooks l hl)
  have hshape := tokenResult_shape ctx 0 kind ⟨tokenSymbol ctx kind, o⟩
  have hcovers : ∀ {stop y}, (tokenResult ctx 0 kind ⟨tokenSymbol ctx kind, o⟩).outcome = .ok stop y →
      p.Side d stop ∧ stop ≤ ctx.source.size := fun h =>
    have hbounds := tokenResult_bounds ho h
    ⟨hside.of_covers hbounds.1 hmisses fun x h₁ h₂ => tokenResult_covers ho h h₁ h₂, hbounds.2⟩
  show p.Follows (.took (tokenResult ctx 0 kind ⟨tokenSymbol ctx kind, o⟩).flat)
    (.took (tokenResult (ctx.on src') 0 kind ⟨tokenSymbol ctx kind, p.edit.carry o⟩).flat)
  generalize tokenResult ctx 0 kind ⟨tokenSymbol ctx kind, o⟩ = e at hmoved hshape hcovers ⊢
  generalize tokenResult (ctx.on src') 0 kind ⟨tokenSymbol ctx kind, p.edit.carry o⟩ = e' at hmoved ⊢
  obtain ⟨out', reads'⟩ := e'
  obtain ⟨hout, hmovedreads⟩ := hmoved
  dsimp only at hout hmovedreads
  cases hshape with
  | leaf info hinfo hinfostart hinvoked hrule _ =>
    obtain ⟨hstop, hstople⟩ := hcovers rfl
    cases hout with
    | ok hmovedstop hy =>
      cases hy with
      | one hpiece =>
        cases hpiece with
        | @node key key' tree tree' hn =>
          obtain ⟨hsymbol, hoffset, htree⟩ := hn
          cases htree with
          | node hinfo' hchildren =>
            cases hchildren
            have hturns := hp.leaf_turns hinfo' hrule (hinfostart ▸ ⟨hstart, hlinked.stop_le⟩)
              ⟨hstop, hstople⟩ (hinvoked ▸ ⟨hside, ho⟩) (hinfo ▸ hreads)
            refine .took (hp.reads_take hmovedreads fun x hx => absurd hx Footprint.not_mem_empty)
              (.ok (hp.eq_carry hstop (Nat.le_succ_of_le hstople) hmovedstop.1) (.one (.node ?_)))
            exact ⟨hsymbol, hp.eq_carry hside (Nat.le_succ_of_le ho) hoffset, hside.outside,
              hturns.flat hp.old_info.1 hp.new_flat⟩
  | bare stop =>
    obtain ⟨hstop, hstople⟩ := hcovers rfl
    cases hout with
    | @ok _ stop' _ y' hmovedstop hy =>
      replace hy : Yield.Alike _ _ (.many #[]) y' := hy
      cases hy with
      | @many _ ps' hps =>
        obtain rfl : ps' = #[] := by simpa using hps
        refine .took (hp.reads_take hmovedreads hreads)
          (.ok (hp.eq_carry hstop (Nat.le_succ_of_le hstople) hmovedstop.1) ?_)
        show Yield.Alike _ _ Yield.empty.flat Yield.empty.flat
        rw [Yield.flat_empty]
        exact Yield.alike_empty
  | fail =>
    cases hout
    exact .took (hp.reads_take hmovedreads hreads) .fail

end Sound

/-! ### Nodes -/

theorem OutcomeTurns.flat {out' : Outcome} (hold : p.old.flat = p.old) (hnew : p.new.flat = p.new)
    (h : p.OutcomeTurns out out') : p.OutcomeTurns out.flat out'.flat := by
  have hpiece : ∀ {q q' : Piece}, q.Alike (fun o o' => o' = p.edit.carry o) p.NodeTurns q' →
      q.flat.Alike (fun o o' => o' = p.edit.carry o) p.NodeTurns q'.flat := by
    rintro _ _ (hn | ⟨hstart, hstop⟩)
    · exact .node ⟨hn.symbol, hn.offset, hn.outside, hn.tree.flat hold hnew⟩
    · exact .text hstart hstop
  cases h with
  | fail => exact .fail
  | ok hstop hy =>
    refine .ok hstop ?_
    cases hy with
    | one hq => exact .one (hpiece hq)
    | many hps =>
      refine .many ?_
      rw [Array.toList_map, Array.toList_map, List.forall₂_map_left_iff, List.forall₂_map_right_iff]
      exact hps.imp fun _ _ => hpiece

theorem operatorLeaf?_turns (ctx ctx' : Context) (depth depth' : Nat) :
    LeavesAlike (fun o o' => o' = p.edit.carry o) (fun s s' => p.Turns s.flat s'.flat) ctx ctx' depth
      depth' := by
  intro bytes o o' ho hstop
  unfold operatorLeaf?
  split
  · exact .none
  · refine .some ?_
    rw [Subtree.flat_node, Subtree.flat_node]
    refine .node ⟨rfl, rfl, ho, hstop, ho, rfl, ?_⟩ (fun h => by cases h.1) .nil
    exact Edit.takes_of_empty (fun x => Footprint.not_mem_empty) fun x => Footprint.not_mem_empty

/-- A node around pieces that are found again. -/
theorem wrap_turns {ctx ctx' : Context} {info info' : NodeInfo} {y' : Yield}
    (hold : p.old.flat = p.old) (hnew : p.new.flat = p.new) (hinfo : info.Follows p.edit info')
    (hne : ¬(info.rule = some p.rule ∧ info.invoked = p.invoked))
    (hy : y.Alike (fun o o' => o' = p.edit.carry o) p.NodeTurns y') :
    p.Turns (y.wrap ctx info).flat (y'.wrap ctx' info').flat := by
  refine hy.wrap (A := fun s s' => p.Turns s.flat s'.flat) (fun n n' hn => hn.tree.flat hold hnew)
    (operatorLeaf?_turns ctx ctx' _ _) (fun cs cs' hcs => ?_) fun bytes => ?_
  · rw [Subtree.flat_node, Subtree.flat_node]
    refine .node ⟨hinfo.type, hinfo.value, hinfo.start, hinfo.stop, hinfo.invoked, hinfo.rule,
      hinfo.reads⟩ hne ?_
    rw [List.forall₂_map_left_iff, List.forall₂_map_right_iff]
    exact hcs
  · rw [Subtree.flat_node, Subtree.flat_node]
    exact .node ⟨hinfo.type, rfl, hinfo.start, hinfo.stop, hinfo.invoked, hinfo.rule, hinfo.reads⟩ hne
      .nil

end Patch

/-- What an outcome keeps. -/
def Outcome.yield : Outcome → Yield
  | .fail => .empty
  | .ok _ y => y

theorem Outcome.nodes_yield (out : Outcome) : out.yield.nodes = out.nodes := by
  cases out with
  | fail => simp [Outcome.yield, Outcome.nodes, Yield.nodes, Yield.empty, Yield.pieces]
  | ok stop y => rfl

/-- The frame of a rule, and what its pattern keeps. -/
theorem Derives.sourced_rule {ctx : Context} {g : Goal} {o : Nat} {out : Outcome} {tr : List Event}
    (h : Derives ctx g (skipped ctx o).1 out tr) (ho : o ≤ ctx.source.size) :
    Sourced ctx out.yield ((skipped ctx o).2.map .saw ++ tr) :=
  h.sourced (skipped_linked ho).stop_le (fun e => by simp) fun n hn => by rwa [← out.nodes_yield]

namespace Patch

variable {p : Patch} {ctx : Context} {src' : Source} {d : Int} {g : Goal} {o stop x : Nat} {out : Outcome}
  {tr : List Event}

section Sound

variable (hp : p.Sound ctx src')

include hp

/-- If a rule is clean, other than that of the old node, nothing of the touched stretch is charged to it,
and the nodes that its pattern keeps shield the stretch. -/
theorem Sound.rule_clean (ho : o ≤ ctx.source.size) {id : Nat} {rule : Rule}
    (hd : Derives ctx (.expr rule.pattern) (skipped ctx o).1 out tr)
    (hne : ¬(id = p.rule ∧ o = p.invoked))
    (hclean : p.Clean (.took (ruleEntryOf ctx id rule o out tr))) :
    p.edit.Misses ((ruleFrame ctx o tr).settle out.yield).mem
      ∧ ∀ n ∈ out.yield.nodes, p.Shields n.2 := by
  have hflat := (hd.sourced_rule ho).flat_eq
  obtain ⟨hreads, hnodes⟩ := hclean
  rw [ruleEntryOf_eq] at hreads hnodes
  cases out with
  | fail =>
    refine ⟨?_, by simp [Outcome.yield, Yield.nodes, Yield.empty, Yield.pieces]⟩
    rw [Outcome.yield, Frame.settle_empty]
    exact hreads
  | ok stop y =>
    by_cases hfragment : rule.isFragment = true
    · rw [ruleResult_fragment hfragment] at hreads hnodes
      rw [Entry.flat_outcome] at hnodes
      refine ⟨hreads, fun n hn => ?_⟩
      rw [← hflat n hn]
      exact hnodes _ (mem_nodes_flat.2 ⟨n, hn, rfl⟩)
    · rw [ruleResult_node (by simpa using hfragment)] at hnodes
      change ∀ n ∈ (Outcome.ok stop (.one (.node ⟨id, o⟩ (y.wrap ctx _).flat))).nodes, _ at hnodes
      rw [Outcome.nodes_one] at hnodes
      have hshields := hnodes _ (Array.mem_singleton.2 rfl)
      obtain ⟨value, hvalue⟩ := y.wrap_info ctx (ruleInfo ctx 0 rule ⟨id, o⟩ (skipped ctx o).1 stop
        ((ruleFrame ctx o tr).settle y))
      obtain ⟨info', children, heq, -, hchildren, -⟩ := y.wrap_eq ctx (ruleInfo ctx 0 rule ⟨id, o⟩
        (skipped ctx o).1 stop ((ruleFrame ctx o tr).settle y))
      rw [heq] at hshields hvalue
      change info' = _ at hvalue
      rw [Subtree.flat_node, hvalue] at hshields
      obtain ⟨hmisses, hbelow⟩ := hp.shields_node hshields fun h =>
        hne ⟨Option.some.inj (show some id = some p.rule from h.1), h.2⟩
      refine ⟨hmisses, fun n hn => ?_⟩
      rw [← hflat n hn]
      exact hbelow _ (List.mem_map_of_mem (hchildren n hn))

/-- What comes out of a rule whose pattern is found again. -/
theorem Sound.rule {id : Nat} {rule : Rule} {out' : Outcome} {tr' : List Event}
    (ho : o ≤ ctx.source.size) (hside : p.Side d o)
    (hd : Derives ctx (.expr rule.pattern) (skipped ctx o).1 out tr)
    (hd' : Derives (ctx.on src') (.expr rule.pattern) (skipped (ctx.on src') (p.edit.carry o)).1 out' tr')
    (hstart : (skipped (ctx.on src') (p.edit.carry o)).1 = p.edit.carry (skipped ctx o).1)
    (hskipped : List.Forall₂ p.Follows ((skipped ctx o).2.map .saw)
      ((skipped (ctx.on src') (p.edit.carry o)).2.map .saw))
    (hout : p.OutcomeTurns out out') (htr : List.Forall₂ p.Follows tr tr')
    (hne : ¬(id = p.rule ∧ o = p.invoked))
    (hclean : p.Clean (.took (ruleEntryOf ctx id rule o out tr))) :
    p.Follows (.took (ruleEntryOf ctx id rule o out tr))
      (.took (ruleEntryOf (ctx.on src') id rule (p.edit.carry o) out' tr')) := by
  obtain ⟨hmisses, hshields⟩ := hp.rule_clean ho hd hne hclean
  have hyield : out.yield.Alike (fun o o' => o' = p.edit.carry o) p.NodeTurns out'.yield := by
    cases hout with
    | fail => exact Yield.alike_empty
    | ok _ hy => exact hy
  have htakes := settle_takes hp (hd.sourced_rule ho) (hd'.sourced_rule (hp.place hside ho).2)
    (List.rel_append hskipped htr) hyield hmisses hshields
  rw [ruleEntryOf_eq, ruleEntryOf_eq]
  cases hout with
  | fail =>
    rw [Outcome.yield, Frame.settle_empty, Frame.settle_empty] at htakes
    exact .took htakes .fail
  | @ok stop stop' y y' hstop hy =>
    by_cases hfragment : rule.isFragment = true
    · rw [ruleResult_fragment hfragment, ruleResult_fragment hfragment]
      refine .took htakes (OutcomeTurns.flat hp.old_info.1 hp.new_flat (.ok hstop hy))
    · have hfragment : rule.isFragment = false := by simpa using hfragment
      rw [ruleResult_node hfragment, ruleResult_node hfragment]
      refine .took (Edit.takes_of_empty (fun x => Footprint.not_mem_empty) fun x => Footprint.not_mem_empty)
        (.ok hstop (.one (.node ⟨rfl, rfl, hside.outside, ?_⟩)))
      refine wrap_turns hp.old_info.1 hp.new_flat ⟨rfl, rfl, hstart, hstop, rfl, rfl, htakes⟩ ?_ hy
      exact fun h => hne ⟨Option.some.inj (show some id = some p.rule from h.1), h.2⟩

end Sound

/-! ### Derivations -/

theorem OutcomeTurns.eq_fail {out' : Outcome} (h : p.OutcomeTurns .fail out') : out' = .fail := by
  cases h
  rfl

theorem OutcomeTurns.eq_ok {y : Yield} {out' : Outcome} (h : p.OutcomeTurns (.ok stop y) out') :
    ∃ y', out' = .ok (p.edit.carry stop) y'
      ∧ y.Alike (fun o o' => o' = p.edit.carry o) p.NodeTurns y' := by
  cases h with
  | ok hstop hy => exact ⟨_, by rw [hstop], hy⟩

theorem OutcomeTurns.eq_many {ps : Array Piece} {out' : Outcome}
    (h : p.OutcomeTurns (.ok stop (.many ps)) out') :
    ∃ ps', out' = .ok (p.edit.carry stop) (.many ps') ∧ List.Forall₂
      (Piece.Alike (fun o o' => o' = p.edit.carry o) p.NodeTurns) ps.toList ps'.toList := by
  obtain ⟨y', rfl, hy⟩ := h.eq_ok
  cases hy with
  | many hps => exact ⟨_, rfl, hps⟩

theorem turns_empty (p : Patch) (o : Nat) :
    p.OutcomeTurns (.ok o .empty) (.ok (p.edit.carry o) .empty) := .ok rfl Yield.alike_empty

/-- A derivation is found again in the edited text. -/
def Again (p : Patch) (ctx' : Context) (g : Goal) (o : Nat) (out : Outcome) (tr : List Event) : Prop :=
  ∃ out' tr', Derives ctx' g (p.edit.carry o) out' tr' ∧ p.OutcomeTurns out out'
    ∧ List.Forall₂ p.Follows tr tr'

variable {ctx' : Context} {e : Expr} {es : List Expr} {m : Nat} {y : Yield} {ps : Array Piece}
  {trs : List Event}

/-- What is matched the same way is found again the same way. -/
theorem Again.lift {g' : Goal} (h : p.Again ctx' g o out tr)
    (hlift : ∀ {out' tr'}, Derives ctx' g (p.edit.carry o) out' tr' →
      Derives ctx' g' (p.edit.carry o) out' tr') : p.Again ctx' g' o out tr := by
  obtain ⟨out', tr', hd, hout, htr⟩ := h
  exact ⟨out', tr', hlift hd, hout, htr⟩

theorem Again.fail (h : p.Again ctx' g o .fail tr) :
    ∃ tr', Derives ctx' g (p.edit.carry o) .fail tr' ∧ List.Forall₂ p.Follows tr tr' := by
  obtain ⟨out', tr', hd, hout, htr⟩ := h
  obtain rfl := hout.eq_fail
  exact ⟨tr', hd, htr⟩

theorem Again.ok (h : p.Again ctx' g o (.ok m y) tr) :
    ∃ y' tr', Derives ctx' g (p.edit.carry o) (.ok (p.edit.carry m) y') tr'
      ∧ p.OutcomeTurns (.ok m y) (.ok (p.edit.carry m) y') ∧ List.Forall₂ p.Follows tr tr' := by
  obtain ⟨out', tr', hd, hout, htr⟩ := h
  obtain ⟨y', rfl, -⟩ := hout.eq_ok
  exact ⟨y', tr', hd, hout, htr⟩

/-- What takes over a match that succeeds. -/
theorem Again.lift_ok {g' : Goal} (h : p.Again ctx' g o (.ok m y) tr)
    (hlift : ∀ {y' tr'}, Derives ctx' g (p.edit.carry o) (.ok (p.edit.carry m) y') tr' →
      Derives ctx' g' (p.edit.carry o) (.ok (p.edit.carry m) y') tr') :
    p.Again ctx' g' o (.ok m y) tr := by
  obtain ⟨y', tr', hd, hout, htr⟩ := h.ok
  exact ⟨_, tr', hlift hd, hout, htr⟩

/-- What is decided by a match that fails. -/
theorem Again.of_fail {g' : Goal} {out' : Outcome} (h : p.Again ctx' g o .fail tr)
    (hlift : ∀ {tr'}, Derives ctx' g (p.edit.carry o) .fail tr' → Derives ctx' g' (p.edit.carry o) out' tr')
    (hout : p.OutcomeTurns out out') : p.Again ctx' g' o out tr := by
  obtain ⟨tr', hd, htr⟩ := h.fail
  exact ⟨out', tr', hlift hd, hout, htr⟩

/-- What is decided by a match that succeeds and is left out. -/
theorem Again.of_ok {g' : Goal} {out' : Outcome} (h : p.Again ctx' g o (.ok m y) tr)
    (hlift : ∀ {y' tr'}, Derives ctx' g (p.edit.carry o) (.ok (p.edit.carry m) y') tr' →
      Derives ctx' g' (p.edit.carry o) out' tr')
    (hout : p.OutcomeTurns out out') : p.Again ctx' g' o out tr := by
  obtain ⟨y', tr', hd, -, htr⟩ := h.ok
  exact ⟨out', tr', hlift hd, hout, htr⟩

theorem Again.many_more (h : p.Again ctx' (.expr e) o (.ok m y) tr)
    (hne : p.edit.carry m ≠ p.edit.carry o) (hs : p.Again ctx' (.many e) m (.ok stop (.many ps)) trs) :
    p.Again ctx' (.many e) o (.ok stop (.many (y.pieces ++ ps))) (tr ++ trs) := by
  obtain ⟨out', tr', hd, hout, htr⟩ := h
  obtain ⟨outs', trs', hds, houts, htrs⟩ := hs
  obtain ⟨y', rfl, hy⟩ := hout.eq_ok
  obtain ⟨ps', rfl, hps⟩ := houts.eq_many
  refine ⟨_, _, .many_more hd hne hds, .ok rfl (.many ?_), List.rel_append htr htrs⟩
  simpa using List.rel_append hy.pieces hps

theorem Again.seq_cons (h : p.Again ctx' (.expr e) o (.ok m y) tr)
    (hs : p.Again ctx' (.seq es) m (.ok stop (.many ps)) trs) :
    p.Again ctx' (.seq (e :: es)) o (.ok stop (.many (y.pieces ++ ps))) (tr ++ trs) := by
  obtain ⟨out', tr', hd, hout, htr⟩ := h
  obtain ⟨outs', trs', hds, houts, htrs⟩ := hs
  obtain ⟨y', rfl, hy⟩ := hout.eq_ok
  obtain ⟨ps', rfl, hps⟩ := houts.eq_many
  refine ⟨_, _, .seq_cons hd hds, .ok rfl (.many ?_), List.rel_append htr htrs⟩
  simpa using List.rel_append hy.pieces hps

theorem Again.seq_stop (h : p.Again ctx' (.expr e) o (.ok m y) tr)
    (hs : p.Again ctx' (.seq es) m .fail trs) : p.Again ctx' (.seq (e :: es)) o .fail (tr ++ trs) := by
  obtain ⟨y', tr', hd, -, htr⟩ := h.ok
  obtain ⟨trs', hds, htrs⟩ := hs.fail
  exact ⟨_, _, .seq_stop hd hds, .fail, List.rel_append htr htrs⟩

theorem Again.choice_next (h : p.Again ctx' (.expr e) o .fail tr)
    (hs : p.Again ctx' (.choice es) o out trs) : p.Again ctx' (.choice (e :: es)) o out (tr ++ trs) := by
  obtain ⟨tr', hd, htr⟩ := h.fail
  obtain ⟨out', trs', hds, hout, htrs⟩ := hs
  exact ⟨_, _, .choice_next hd hds, hout, List.rel_append htr htrs⟩

section Sound

variable (hp : p.Sound ctx src')

include hp

/-- The rule of the old node gives the new one in the edited text. -/
theorem Sound.again_old (h : Derives ctx (.rule p.rule) p.invoked out tr) :
    p.Again (ctx.on src') (.rule p.rule) p.invoked out tr := by
  obtain ⟨r, hr, hfragment⟩ := hp.licensed
  obtain ⟨trold, hd⟩ := hp.derives
  obtain ⟨trnew, hd'⟩ := hp.derives'
  obtain ⟨-, -, rfl, -⟩ := hd.node_of_rule hr hfragment
  obtain ⟨-, -, rfl, -⟩ := hd'.node_of_rule hr hfragment
  obtain ⟨rfl, rfl⟩ := h.unique hd
  have hcarry := hp.carry_eq hp.invoked_le
  have hout : p.OutcomeTurns (.ok p.stop (.one (.node ⟨p.rule, p.invoked⟩ p.old)))
      (.ok (p.edit.carry p.stop) (.one (.node ⟨p.rule, p.invoked⟩ p.new))) :=
    .ok rfl (.one (.node ⟨rfl, hcarry.symm, .inl hp.invoked_le, .patch⟩))
  unfold Again
  rw [hcarry]
  refine ⟨_, _, hd', hout, .cons (.took ?_ hout) .nil⟩
  exact Edit.takes_of_empty (fun x => Footprint.not_mem_empty) fun x => Footprint.not_mem_empty

/-- A literal is found again. -/
theorem Sound.again_literal (ho : o ≤ ctx.source.size) (hside : p.Side d o) (label : Option Bytes)
    (text : Bytes)
    (hclean : ∀ ev ∈ (skipped ctx o).2.map Event.saw
      ++ [.saw (Scan.literal ctx.source.text text (isWord text) (skipped ctx o).1)], p.Clean ev) :
    p.Again (ctx.on src') (.expr (.atom label (.literal text))) o
      (scanned (Scan.literal ctx.source.text text (isWord text) (skipped ctx o).1) fun stop =>
        .ok stop (.one (.text text (skipped ctx o).1)))
      ((skipped ctx o).2.map .saw
        ++ [.saw (Scan.literal ctx.source.text text (isWord text) (skipped ctx o).1)]) := by
  obtain ⟨hlooks, hlook⟩ := List.forall_mem_append.1 hclean
  rw [List.forall_mem_map] at hlooks
  rw [List.forall_mem_singleton] at hlook
  obtain ⟨hstart, hstart', hskipped⟩ := hp.skip ho hside hlooks
  have hsize := (skipped_linked ho).stop_le
  have hin := Scan.literal_inside hsize text (isWord text)
  have hside' := hin.start.symm ▸ hstart
  obtain ⟨hmoved, houtcome⟩ := literal_scanned_moved hsize (hp.place hstart hsize)
    (hp.agrees hside' hlook)
  refine ⟨_, _, .literal rfl rfl, ?_, ?_⟩
  · rw [hstart']
    exact hp.text_turns hin hstart hlook (fun stop hreach => literal_upTo hreach) houtcome
  · rw [hstart']
    exact List.rel_append hskipped (.cons (hp.saw hside' hlook hin.stop_le hmoved) .nil)

/-- A byte is found again. -/
theorem Sound.byte_turns (ho : o ≤ ctx.source.size) (hside : p.Side d o) (inside : UInt8 → Bool)
    (hclean : p.Clean (.saw (Scan.byte ctx.source.text inside o))) :
    p.OutcomeTurns
        (scanned (Scan.byte ctx.source.text inside o) fun stop =>
          .ok stop (.one (.text (ctx.source.slice o stop) o)))
        (scanned (Scan.byte src'.text inside (p.edit.carry o)) fun stop =>
          .ok stop (.one (.text (src'.slice (p.edit.carry o) stop) (p.edit.carry o))))
      ∧ p.Follows (.saw (Scan.byte ctx.source.text inside o))
          (.saw (Scan.byte src'.text inside (p.edit.carry o))) := by
  have hin := Scan.byte_inside ho inside
  have hside' := hin.start.symm ▸ hside
  obtain ⟨hmoved, houtcome⟩ := byte_scanned_moved ho (hp.place hside ho) (hp.agrees hside' hclean)
  refine ⟨hp.text_turns hin hside hclean (fun stop hreach => ?_) houtcome,
    hp.saw hside' hclean hin.stop_le hmoved⟩
  obtain ⟨hle, hstop, -⟩ := hin.upTo hreach
  rw [length_slice hle hstop]
  exact Nat.add_sub_of_le hle

/-- A rule is found again if its pattern is: that of the old node by the new one, and any other since what
its frame is charged with is clean, so its trace is. -/
theorem Sound.again_rule {id : Nat} {rule : Rule} (ho : o ≤ ctx.source.size) (hout : p.Outside o)
    (hrule : ctx.grammar.rules[id]? = some rule)
    (hd : Derives ctx (.expr rule.pattern) (skipped ctx o).1 out tr)
    (hagain : (skipped ctx o).1 ≤ ctx.source.size → p.Outside (skipped ctx o).1 →
      (∀ ev ∈ tr, p.Clean ev) → p.Again (ctx.on src') (.expr rule.pattern) (skipped ctx o).1 out tr)
    (hclean : p.Clean (.took (ruleEntryOf ctx id rule o out tr))) :
    p.Again (ctx.on src') (.rule id) o (ruleEntryOf ctx id rule o out tr).outcome
      [.took (ruleEntryOf ctx id rule o out tr)] := by
  by_cases hold : id = p.rule ∧ o = p.invoked
  · obtain ⟨rfl, rfl⟩ := hold
    exact hp.again_old (.rule hrule hd rfl rfl)
  · obtain ⟨d, hside⟩ := hout.side
    obtain ⟨hmisses, hshields⟩ := hp.rule_clean ho hd hold hclean
    obtain ⟨hlooks, hbelow⟩ := List.forall_mem_append.1
      (clean_of_settle (hd.sourced_rule ho) hmisses hshields)
    rw [List.forall_mem_map] at hlooks
    obtain ⟨hstart, hstart', hskipped⟩ := hp.skip ho hside hlooks
    obtain ⟨out', tr', hd', hturns, htr⟩ := hagain (skipped_linked ho).stop_le hstart.outside hbelow
    rw [← hstart'] at hd'
    have hfollows := hp.rule ho hside hd hd' hstart' hskipped hturns htr hold hclean
    refine ⟨_, _, .rule hrule hd' rfl rfl, ?_, .cons hfollows .nil⟩
    cases hfollows with
    | took _ houtcome => exact houtcome

theorem Sound.again_token (ho : o ≤ ctx.source.size) (hout : p.Outside o) (kind : TokenKind)
    (hclean : p.Clean (.took (tokenEntryOf ctx kind o))) :
    p.Again (ctx.on src') (.token kind) o (tokenEntryOf ctx kind o).outcome
      [.took (tokenEntryOf ctx kind o)] := by
  obtain ⟨d, hside⟩ := hout.side
  have hfollows := hp.token ho hside kind hclean
  refine ⟨_, _, .token rfl rfl, ?_, .cons hfollows .nil⟩
  cases hfollows with
  | took _ houtcome => exact houtcome

/-- Where a clean match ends the next one can start, and it has moved on in the edited text if it has done
so before. -/
theorem Sound.next (h : Derives ctx g o (.ok stop y) tr) (ho : o ≤ ctx.source.size)
    (hout : p.Outside o) (hclean : ∀ ev ∈ tr, p.Clean ev) :
    stop ≤ ctx.source.size ∧ p.Outside stop ∧ (p.edit.carry stop = p.edit.carry o ↔ stop = o) := by
  have hbounds := h.bounds ho rfl
  have hcrosses := crosses_of_clean hp h ho hout hclean
  exact ⟨hbounds.2, hcrosses.outside hbounds.1, hp.carry_eq_iff hcrosses hbounds.1 hbounds.2⟩

/-- **A derivation that has looked at an edit only inside of the old node is found again in the edited
text**, with the new node in the place of the old one. -/
theorem Sound.again (h : Derives ctx g o out tr) (ho : o ≤ ctx.source.size) (hout : p.Outside o)
    (hclean : ∀ ev ∈ tr, p.Clean ev) : p.Again (ctx.on src') g o out tr := by
  induction h with
  -- atoms
  | literal hl hres =>
    subst hl hres
    obtain ⟨d, hside⟩ := hout.side
    exact hp.again_literal ho hside _ _ hclean
  | charClass hl hres =>
    subst hl hres
    obtain ⟨d, hside⟩ := hout.side
    obtain ⟨hturns, hfollows⟩ := hp.byte_turns ho hside _ (hclean _ (List.mem_singleton_self _))
    exact ⟨_, _, .charClass rfl rfl, hturns, .cons hfollows .nil⟩
  | anyByte hl hres =>
    subst hl hres
    obtain ⟨d, hside⟩ := hout.side
    obtain ⟨hturns, hfollows⟩ := hp.byte_turns ho hside _ (hclean _ (List.mem_singleton_self _))
    exact ⟨_, _, .anyByte rfl rfl, hturns, .cons hfollows .nil⟩
  | ruleAtom _ ih => exact (ih ho hout hclean).lift .ruleAtom
  | tokenAtom _ ih => exact (ih ho hout hclean).lift .tokenAtom
  -- operators
  | star _ ih => exact (ih ho hout hclean).lift .star
  | plus hm hne ih =>
    have hmoves := mt (hp.next hm ho hout hclean).2.2.1 hne
    exact (ih ho hout hclean).lift_ok fun hd => .plus hd hmoves
  | plus_fail _ ih => exact (ih ho hout hclean).of_ok .plus_fail .fail
  | option _ ih => exact (ih ho hout hclean).lift_ok .option
  | option_fail _ ih => exact (ih ho hout hclean).of_fail .option_fail (p.turns_empty _)
  | ahead _ ih => exact (ih ho hout hclean).of_ok .ahead (p.turns_empty _)
  | ahead_fail _ ih => exact (ih ho hout hclean).of_fail .ahead_fail .fail
  | notAhead _ ih => exact (ih ho hout hclean).of_ok .notAhead .fail
  | notAhead_fail _ ih => exact (ih ho hout hclean).of_fail .notAhead_fail (p.turns_empty _)
  -- repetitions
  | many_fail _ ih => exact (ih ho hout hclean).of_fail .many_fail (p.turns_empty _)
  | many_stay _ ih => exact (ih ho hout hclean).of_ok .many_stay (p.turns_empty _)
  | many_more hd hne _ ih ihs =>
    obtain ⟨hfirst, hrest⟩ := List.forall_mem_append.1 hclean
    obtain ⟨hm, hout', hiff⟩ := hp.next hd ho hout hfirst
    exact (ih ho hout hfirst).many_more (mt hiff.1 hne) (ihs hm hout' hrest)
  -- sequences
  | seq _ ih => exact (ih ho hout hclean).lift .seq
  | seq_nil => exact ⟨_, _, .seq_nil, p.turns_empty _, .nil⟩
  | seq_fail _ ih => exact (ih ho hout hclean).of_fail .seq_fail .fail
  | seq_stop hd _ ih ihs =>
    obtain ⟨hfirst, hrest⟩ := List.forall_mem_append.1 hclean
    obtain ⟨hm, hout', -⟩ := hp.next hd ho hout hfirst
    exact (ih ho hout hfirst).seq_stop (ihs hm hout' hrest)
  | seq_cons hd _ ih ihs =>
    obtain ⟨hfirst, hrest⟩ := List.forall_mem_append.1 hclean
    obtain ⟨hm, hout', -⟩ := hp.next hd ho hout hfirst
    exact (ih ho hout hfirst).seq_cons (ihs hm hout' hrest)
  -- ordered choices
  | choice _ ih => exact (ih ho hout hclean).lift .choice
  | choice_nil => exact ⟨_, _, .choice_nil, .fail, .nil⟩
  | choice_first _ ih => exact (ih ho hout hclean).lift_ok .choice_first
  | choice_next _ _ ih ihs =>
    obtain ⟨hfirst, hrest⟩ := List.forall_mem_append.1 hclean
    exact (ih ho hout hfirst).choice_next (ihs ho hout hrest)
  -- names, rules and tokens
  | name_rule hfind _ ih => exact (ih ho hout hclean).lift (.name_rule hfind)
  | name_token hfind hkind hreserved _ ih =>
    exact (ih ho hout hclean).lift (.name_token hfind hkind hreserved)
  | name_fail hfind hall => exact ⟨_, _, .name_fail hfind hall, .fail, .nil⟩
  | rule hrule hd hentry hres ih =>
    subst hentry hres
    exact hp.again_rule ho hout hrule hd ih (hclean _ (List.mem_singleton_self _))
  | token hentry hres =>
    subst hentry hres
    exact hp.again_token ho hout _ (hclean _ (List.mem_singleton_self _))

/-! ### Documents -/

/-- What may follow a document is skipped again. -/
theorem Sound.rest (ho : o ≤ ctx.source.size) (hside : p.Side d o)
    (hclean : ∀ l ∈ (restOf ctx o).2, p.Clean (.saw l)) :
    p.Side d (restOf ctx o).1
      ∧ (restOf (ctx.on src') (p.edit.carry o)).1 = p.edit.carry (restOf ctx o).1
      ∧ List.Forall₂ p.Follows ((restOf ctx o).2.map .saw)
          ((restOf (ctx.on src') (p.edit.carry o)).2.map .saw) := by
  have hplace := hp.place hside ho
  by_cases hskip : ctx.grammar.skipsIgnored = true
  · have heq : restOf ctx o = skipped ctx o := if_pos hskip
    have heq' : restOf (ctx.on src') (p.edit.carry o) = skipped (ctx.on src') (p.edit.carry o) :=
      if_pos hskip
    rw [heq] at hclean ⊢
    rw [heq']
    exact hp.skip ho hside hclean
  · have heq : restOf ctx o = (ctx.source.text.scanWhile Byte.isBlank o, [Scan.blanks ctx.source.text o]) :=
      if_neg hskip
    have heq' : restOf (ctx.on src') (p.edit.carry o)
        = (src'.text.scanWhile Byte.isBlank (p.edit.carry o), [Scan.blanks src'.text (p.edit.carry o)]) :=
      if_neg hskip
    rw [heq] at hclean ⊢
    rw [heq']
    have hin := Scan.blanks_inside ho
    have hlook := hclean _ (List.mem_singleton_self _)
    have hside' := hin.start.symm ▸ hside
    have hmoved := (hp.agrees hside' hlook).movedBy hin hplace.1 (Scan.blanks_moved ho hplace.2)
    obtain ⟨h₁, h₂, h₃⟩ := hin.upTo rfl
    have hend := hside'.look hlook (by rw [hin.start]; exact h₁) h₃
    obtain ⟨stop, hreach, hstop⟩ := hmoved.upTo rfl
    cases hreach
    refine ⟨hend, hp.eq_carry hend (Nat.le_succ_of_le h₂) hstop, ?_⟩
    exact .cons (hp.saw hside' hlook hin.stop_le hmoved) .nil

/-- If the root of a document shields the touched stretch, so do the nodes of which it is made. -/
theorem Sound.shields_root (hflat : ∀ n ∈ y.nodes, flatNode n = n)
    (hroot : p.Shields (Parser.rootOf ctx stop y).flat) : ∀ n ∈ y.nodes, p.Shields n.2 := by
  rcases rootOf_eq ctx stop y with ⟨key, tree, rfl, heq⟩ | heq
  · rw [heq] at hroot
    intro n hn
    rw [← hflat n hn]
    have : n = (key, tree) := by simpa [Yield.nodes, Yield.pieces, Piece.node?] using hn
    exact this ▸ hroot
  · obtain ⟨info, children, hwrap, -, hchildren, -⟩ := y.wrap_eq ctx (programInfo ctx stop)
    obtain ⟨value, hvalue⟩ := y.wrap_info ctx (programInfo ctx stop)
    rw [hwrap] at hvalue
    change info = _ at hvalue
    rw [heq, hwrap, Subtree.flat_node, hvalue] at hroot
    obtain ⟨-, hbelow⟩ := hp.shields_node hroot fun h => by cases h.1
    intro n hn
    rw [← hflat n hn]
    exact hbelow _ (List.mem_map_of_mem (hchildren n hn))

/-- The root of a document is found again. -/
theorem Sound.root_turns {y' : Yield}
    (hy : y.Alike (fun o o' => o' = p.edit.carry o) p.NodeTurns y') :
    p.Turns (Parser.rootOf ctx stop y).flat
      (Parser.rootOf (ctx.on src') (p.edit.carry stop) y').flat := by
  have hwrap : p.Turns (y.wrap ctx (programInfo ctx stop)).flat
      (y'.wrap (ctx.on src') (programInfo (ctx.on src') (p.edit.carry stop))).flat := by
    have hzero := (hp.carry_eq (Nat.zero_le _)).symm
    refine wrap_turns hp.old_info.1 hp.new_flat ⟨rfl, rfl, hzero, rfl, hzero, rfl, ?_⟩
      (fun h => by cases h.1) hy
    exact Edit.takes_of_empty (fun x => Footprint.not_mem_empty) fun x => Footprint.not_mem_empty
  cases hy with
  | one hpiece =>
    cases hpiece with
    | node hn => exact hn.tree.flat hp.old_info.1 hp.new_flat
    | text _ _ => exact hwrap
  | many _ => exact hwrap

/-- **A document whose tree shields an edit is accepted in the edited text**, with the new node in the
place of the old one. -/
theorem Sound.accepts {start : Bytes} {root : Subtree} {reads : Footprint}
    (h : Accepts ctx start root reads) (hroot : p.Shields root) (hreads : p.edit.Misses reads.mem) :
    ∃ root' reads', Accepts (ctx.on src') start root' reads' ∧ p.Turns root root'
      ∧ p.edit.Takes reads.mem reads'.mem := by
  obtain ⟨stop, y, tr, hd, hrest, rfl, rfl⟩ := h
  have hzero : 0 ≤ ctx.source.size := Nat.zero_le _
  have hsourced : Sourced ctx y (tr ++ (restOf ctx stop).2.map .saw) :=
    hd.sourced hzero (fun e => by simp) fun n hn => hn
  have hshields := hp.shields_root hsourced.flat_eq hroot
  obtain ⟨hclean, hlooks⟩ := List.forall_mem_append.1 (clean_of_settle hsourced hreads hshields)
  rw [List.forall_mem_map] at hlooks
  -- the derivation of the start
  obtain ⟨out', tr', hd', hout, htr⟩ := hp.again hd hzero (.inl (Nat.zero_le _)) hclean
  rw [hp.carry_eq (Nat.zero_le _)] at hd'
  obtain ⟨y', rfl, hy⟩ := hout.eq_ok
  -- the rest of the text
  have hbounds := hd.bounds hzero rfl
  have hcrosses := crosses_of_clean hp hd hzero (.inl (Nat.zero_le _)) hclean
  obtain ⟨d, hside⟩ := (hcrosses.outside hbounds.1).side
  obtain ⟨hend, hend', hbehind⟩ := hp.rest hbounds.2 hside hlooks
  have hsize : (restOf ctx stop).1 = ctx.source.size :=
    Nat.le_antisymm (restOf_linked hbounds.2).stop_le hrest
  rw [hsize] at hend hend'
  refine ⟨_, _, ⟨_, y', tr', hd', ?_, rfl, rfl⟩, hp.root_turns hy, ?_⟩
  · have hplace := hp.stop_le
    have hlt := hp.offset_lt
    have htext : p.edit.carry ctx.source.size = src'.size := by
      show _ = src'.text.size
      rw [hp.carry_behind hplace (Nat.le_succ _), hp.text, hp.fits.size_eq]
      rfl
    exact Nat.le_of_eq (htext.symm.trans hend'.symm)
  · refine settle_takes hp hsourced ?_ (List.rel_append htr hbehind) hy hreads hshields
    exact hd'.sourced (Nat.zero_le _) (fun e => by simp) fun n hn => hn

end Sound

end Patch

end Parse

end Packrat
