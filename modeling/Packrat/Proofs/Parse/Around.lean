import Packrat.Proofs.Parse.Anew
import Packrat.Proofs.Tree.Displaced

/-!
Matches around an edit.

An edit touches a stretch of the text, and a node is matched anew in which everything stands that has
examined this stretch (`Parse.Patch`).  The trees that a parse has made shield the stretch: whatever
has looked at it stands in the old node (`Patch.Shields`).  In the edited text they are found again with
their offsets carried along, and with the new node in the place of the old one (`Patch.Turns`).

Traces turn into each other event by event (`Patch.Follows`), and so does what is charged to a frame
after them (`settle_takes`).  This is delicate in one place.  If the new node ends where the edit
starts, an offset in front of the edit and one behind it become the same, and so do the keys of two
nodes; but a match that starts in front of the edit would have to look at it, so the node that it gives
has not looked at anything.
-/

namespace Packrat

theorem exists_of_forall₂_left {α β : Type} {rel : α → β → Prop} {as : List α} {bs : List β}
    (h : List.Forall₂ rel as bs) {a : α} (ha : a ∈ as) : ∃ b ∈ bs, rel a b := by
  induction h with
  | nil => cases ha
  | @cons a' b' as bs hab _ ih =>
    rcases List.mem_cons.1 ha with rfl | ha
    · exact ⟨b', List.mem_cons_self, hab⟩
    · obtain ⟨b, hb, hrel⟩ := ih ha
      exact ⟨b, List.mem_cons_of_mem _ hb, hrel⟩

theorem exists_of_forall₂_right {α β : Type} {rel : α → β → Prop} {as : List α} {bs : List β}
    (h : List.Forall₂ rel as bs) {b : β} (hb : b ∈ bs) : ∃ a ∈ as, rel a b :=
  exists_of_forall₂_left (List.Forall₂.flip h) hb

theorem forall₂_imp_of_mem {α β : Type} {rel rel' : α → β → Prop} {as : List α} {bs : List β}
    (h : List.Forall₂ rel as bs) (himp : ∀ a ∈ as, ∀ b, rel a b → rel' a b) :
    List.Forall₂ rel' as bs :=
  ((List.forall₂_and_left as bs).2 ⟨himp, h⟩).imp fun _ _ hab => hab.1 _ hab.2

/-! ### Sets of offsets -/

namespace Edit

/-- No offset of a set lies in the stretch that an edit touches. -/
def Misses (e : Edit) (S : Nat → Prop) : Prop :=
  ∀ x, e.offset ≤ x → x < max (e.offset + e.oldLength) (e.offset + 1) → ¬S x

/-- An edit carries one set of offsets to another one. -/
def Takes (e : Edit) (S S' : Nat → Prop) : Prop := ∀ y, S' y ↔ ∃ x, S x ∧ e.carry x = y

variable {e : Edit} {S S' R R' : Nat → Prop}

theorem Misses.mono (h : e.Misses S) (hle : ∀ x, R x → S x) : e.Misses R :=
  fun x h₁ h₂ hx => h x h₁ h₂ (hle x hx)

/-- Nothing looks at the place where an edit starts. -/
theorem Misses.offset (h : e.Misses S) : ¬S e.offset := h _ (Nat.le_refl _) (by omega)

theorem takes_of_empty (h : ∀ x, ¬S x) (h' : ∀ x, ¬S' x) : e.Takes S S' :=
  fun y => ⟨fun hy => absurd hy (h' y), fun ⟨x, hx, _⟩ => absurd hx (h x)⟩

theorem Takes.congr (h : e.Takes S S') (hS : ∀ x, R x ↔ S x) (hS' : ∀ x, R' x ↔ S' x) :
    e.Takes R R' := by
  intro y
  rw [hS' y, h y]
  simp only [hS]

theorem Takes.or (h : e.Takes S S') (h' : e.Takes R R') :
    e.Takes (fun x => S x ∨ R x) fun x => S' x ∨ R' x := by
  intro y
  show S' y ∨ R' y ↔ _
  rw [h y, h' y]
  simp only [or_and_right, exists_or]

/-- The union of sets that are carried along one by one. -/
theorem takes_exists {α β : Type} {rel : α → β → Prop} {as : List α} {bs : List β}
    (h : List.Forall₂ rel as bs) {S : α → Nat → Prop} {S' : β → Nat → Prop}
    (hS : ∀ a b, a ∈ as → b ∈ bs → rel a b → e.Takes (S a) (S' b)) :
    e.Takes (fun x => ∃ a ∈ as, S a x) fun x => ∃ b ∈ bs, S' b x := by
  induction h with
  | nil => exact takes_of_empty (by simp) (by simp)
  | @cons a b as bs hab _ ih =>
    have hrest := ih fun a' b' ha' hb' =>
      hS a' b' (List.mem_cons_of_mem _ ha') (List.mem_cons_of_mem _ hb')
    refine ((hS a b List.mem_cons_self List.mem_cons_self hab).or hrest).congr ?_ ?_
    · simp only [List.mem_cons, exists_eq_or_imp, implies_true]
    · simp only [List.mem_cons, exists_eq_or_imp, implies_true]

end Edit

/-- A node that says the same after an edit, its offsets carried along; its position is left aside. -/
structure NodeInfo.Follows (e : Edit) (i i' : NodeInfo) : Prop where
  type : i'.type = i.type
  value : i'.value = i.value
  start : i'.start = e.carry i.start
  stop : i'.stop = e.carry i.stop
  invoked : i'.invoked = e.carry i.invoked
  rule : i'.rule = i.rule
  reads : e.Takes i.reads.mem i'.reads.mem

namespace Parse

/-- A node that a rule has made, and what the rule makes in its place after an edit. -/
structure Patch where
  edit : Edit
  rule : Nat
  /-- Where the rule is asked for, in both texts. -/
  invoked : Nat
  /-- Where the old node ends. -/
  stop : Nat
  old : Subtree
  new : Subtree

namespace Patch

/-! ### Trees -/

/-- In a tree, whatever has examined the stretch that the edit touches stands in the old node. -/
inductive Shields (p : Patch) : Subtree → Prop
  | old : Shields p p.old
  | node {info : NodeInfo} {children : List Subtree} : p.edit.Misses info.reads.mem →
      (∀ c ∈ children, Shields p c) → Shields p (.node info children)

/-- What becomes of a tree: the new node stands in the place of the old one, and the other nodes are
carried along. -/
inductive Turns (p : Patch) : Subtree → Subtree → Prop
  | patch : Turns p p.old p.new
  | node {info info' : NodeInfo} {children children' : List Subtree} : info.Follows p.edit info' →
      ¬(info.rule = some p.rule ∧ info.invoked = p.invoked) →
      List.Forall₂ (Turns p) children children' → Turns p (.node info children) (.node info' children')

variable {p : Patch} {t t' : Subtree}

theorem shields_of_misses (h : p.edit.Misses t.Examined) : p.Shields t := by
  induction t using Subtree.induct with
  | step info children ih =>
    refine .node (h.mono fun x hx => Subtree.examined_node.2 (.inl hx)) fun c hc => ih c hc ?_
    exact h.mono fun x hx => Subtree.examined_node.2 (.inr ⟨c, hc, hx⟩)

/-- A tree that has examined the touched stretch contains the old node. -/
theorem Shields.old_mem (h : p.Shields t) (hread : ¬p.edit.Misses t.Examined) : p.old ∈ t.parts := by
  induction h with
  | old => exact Subtree.mem_parts_self _
  | @node info children hinfo _ ih =>
    by_cases hchild : ∃ c ∈ children, ¬p.edit.Misses c.Examined
    · obtain ⟨c, hc, hread⟩ := hchild
      exact Subtree.mem_parts_node.2 (.inr ⟨c, hc, ih c hc hread⟩)
    · push Not at hchild
      refine absurd (fun x h₁ h₂ hx => ?_) hread
      rcases Subtree.examined_node.1 hx with hx | ⟨c, hc, hx⟩
      · exact hinfo x h₁ h₂ hx
      · exact hchild c hc x h₁ h₂ hx

/-- A tree that has not examined the touched stretch is carried along as a whole. -/
theorem Turns.examined (h : p.Turns t t') (hold : ¬p.edit.Misses p.old.Examined)
    (hmisses : p.edit.Misses t.Examined) : p.edit.Takes t.Examined t'.Examined := by
  induction t using Subtree.induct generalizing t' with
  | step info children ih =>
    generalize ht : Subtree.node info children = t at h hmisses
    cases h with
    | patch => exact absurd hmisses hold
    | @node _ info' _ children' hinfo _ hchildren =>
      cases ht
      refine (hinfo.reads.or (p.edit.takes_exists hchildren fun c c' hc _ hturns => ?_)).congr
        (fun x => Subtree.examined_node) fun x => Subtree.examined_node
      exact ih c hc hturns (hmisses.mono fun x hx => Subtree.examined_node.2 (.inr ⟨c, hc, hx⟩))

/-- Depths do not matter. -/
theorem Turns.flat (hold : p.old.flat = p.old) (hnew : p.new.flat = p.new) (h : p.Turns t t') :
    p.Turns t.flat t'.flat := by
  induction t using Subtree.induct generalizing t' with
  | step info children ih =>
    generalize ht : Subtree.node info children = t at h
    cases h with
    | patch =>
      rw [hold, hnew]
      exact .patch
    | @node _ info' _ children' hinfo hne hchildren =>
      cases ht
      rw [Subtree.flat_node, Subtree.flat_node]
      refine .node ⟨hinfo.type, hinfo.value, hinfo.start, hinfo.stop, hinfo.invoked, hinfo.rule,
        hinfo.reads⟩ hne ?_
      rw [List.forall₂_map_left_iff, List.forall₂_map_right_iff]
      exact forall₂_imp_of_mem hchildren fun c hc _ hturns => ih c hc hturns

/-! ### Offsets -/

/-- An offset outside of the old node: up to the edit, or from the end of the node on. -/
def Outside (p : Patch) (o : Nat) : Prop := o ≤ p.edit.offset ∨ p.stop ≤ o

/-- The side of the edit on which an offset lies, by the distance that it moves. -/
def Side (p : Patch) (d : Int) (o : Nat) : Prop :=
  (d = 0 ∧ o ≤ p.edit.offset) ∨ (d = p.edit.delta ∧ p.stop ≤ o)

/-- A match that leads from one offset to another one and has not looked at the edit stays on its
side of it, or has passed over the old node. -/
def Crosses (p : Patch) (o m : Nat) : Prop :=
  m ≤ p.edit.offset ∨ p.stop ≤ o ∨ (o ≤ p.invoked ∧ p.stop ≤ m)

/-- The rule of the old node derives it in the text, and the new one in the edited text. -/
structure Sound (p : Patch) (ctx : Context) (src' : Source) : Prop where
  text : src'.text = p.edit.applyTo ctx.source.text
  fits : p.edit.Fits ctx.source.text
  comments : ctx.Fits
  licensed : ∃ r, ctx.grammar.rules[p.rule]? = some r ∧ r.isFragment = false
  derives : ∃ tr, Derives ctx (.rule p.rule) p.invoked
    (.ok p.stop (.one (.node ⟨p.rule, p.invoked⟩ p.old))) tr
  derives' : ∃ tr, Derives (ctx.on src') (.rule p.rule) p.invoked
    (.ok (p.edit.carry p.stop) (.one (.node ⟨p.rule, p.invoked⟩ p.new))) tr
  invoked_le : p.invoked ≤ p.edit.offset
  offset_lt : p.edit.offset < p.stop
  le_stop : p.edit.offset + p.edit.oldLength ≤ p.stop
  /-- Somebody has looked at the edit inside of the old node. -/
  examined : ¬p.edit.Misses p.old.Examined
  /-- The new node has an extent. -/
  invoked_lt : p.invoked < p.edit.carry p.stop

variable {ctx : Context} {src' : Source} {d : Int} {o m x : Nat}

theorem Outside.side (h : p.Outside o) : ∃ d, p.Side d o :=
  h.elim (fun h => ⟨0, .inl ⟨rfl, h⟩⟩) fun h => ⟨_, .inr ⟨rfl, h⟩⟩

theorem Side.outside (h : p.Side d o) : p.Outside o := h.imp And.right And.right

theorem Crosses.outside (h : p.Crosses o m) (hom : o ≤ m) : p.Outside m := by
  rcases h with h | h | ⟨-, h⟩
  · exact .inl h
  · exact .inr (Nat.le_trans h hom)
  · exact .inr h

section Sound

variable (hp : p.Sound ctx src')

include hp

theorem Sound.stop_le : p.stop ≤ ctx.source.size := by
  obtain ⟨tr, hd⟩ := hp.derives
  have h₁ := hp.invoked_le
  have h₂ := hp.fits.le_size
  exact (hd.bounds (show p.invoked ≤ ctx.source.text.size by omega) rfl).2

/-- The old node is a node of the rule, and stands where it does. -/
theorem Sound.old_info : p.old.flat = p.old ∧ p.old.info.rule = some p.rule
    ∧ p.old.info.invoked = p.invoked ∧ p.old.info.stop = p.stop := by
  obtain ⟨r, hr, hfragment⟩ := hp.licensed
  obtain ⟨tr, hd⟩ := hp.derives
  obtain ⟨tree, htree, -, hinfo⟩ := hd.node_of_rule hr hfragment
  cases htree
  exact hinfo

theorem Sound.new_flat : p.new.flat = p.new := by
  obtain ⟨r, hr, hfragment⟩ := hp.licensed
  obtain ⟨tr, hd⟩ := hp.derives'
  obtain ⟨tree, htree, -, hflat, -⟩ := hd.node_of_rule hr hfragment
  cases htree
  exact hflat

/-- A node other than the old one has not looked at the touched stretch itself. -/
theorem Sound.shields_node {info : NodeInfo} {children : List Subtree}
    (h : p.Shields (.node info children))
    (hne : ¬(info.rule = some p.rule ∧ info.invoked = p.invoked)) :
    p.edit.Misses info.reads.mem ∧ ∀ c ∈ children, p.Shields c := by
  generalize ht : Subtree.node info children = t at h
  cases h with
  | old =>
    obtain ⟨-, hrule, hinvoked, -⟩ := hp.old_info
    rw [← ht] at hrule hinvoked
    exact absurd ⟨hrule, hinvoked⟩ hne
  | node hmisses hchildren =>
    cases ht
    exact ⟨hmisses, hchildren⟩

/-- The new node stands in the place of the old one. -/
theorem Sound.turns_old {t' : Subtree} (h : p.Turns p.old t') : t' = p.new := by
  generalize ht : p.old = t at h
  cases h with
  | patch => rfl
  | node _ hne _ =>
    obtain ⟨-, hrule, hinvoked, -⟩ := hp.old_info
    rw [ht] at hrule hinvoked
    exact absurd ⟨hrule, hinvoked⟩ hne

theorem Sound.carry_eq (h : o ≤ p.edit.offset) : p.edit.carry o = o :=
  hp.fits.shift_before (.inl h)

theorem Sound.carry_behind (h : p.stop ≤ o) (ho : o ≤ ctx.source.size + 1) :
    p.edit.carry o = o - p.edit.oldLength + p.edit.newLength := by
  have h₁ := hp.offset_lt
  have h₂ := hp.le_stop
  exact hp.fits.shift_behind ho (by omega) (by omega)

theorem Sound.moved (h : p.Side d o) (ho : o ≤ ctx.source.size + 1) :
    Offset.MovedBy d o (p.edit.carry o) := by
  have h₁ := hp.offset_lt
  have h₂ := hp.le_stop
  unfold Offset.MovedBy
  rcases h with ⟨rfl, h⟩ | ⟨rfl, h⟩
  · rw [hp.carry_eq h]
    omega
  · rw [hp.carry_behind h ho, hp.fits.delta_eq]
    omega

theorem Sound.eq_carry (h : p.Side d o) (ho : o ≤ ctx.source.size + 1) {o' : Nat}
    (hmoved : Offset.MovedBy d o o') : o' = p.edit.carry o := by
  have := hp.moved h ho
  unfold Offset.MovedBy at this hmoved
  omega

/-- Offsets of the text are found in the edited text. -/
theorem Sound.place (h : p.Side d o) (ho : o ≤ ctx.source.size) :
    PlaceMovedBy d src' o (p.edit.carry o) := by
  have h₁ := hp.offset_lt
  have h₂ := hp.le_stop
  refine ⟨hp.moved h (Nat.le_succ_of_le ho), ?_⟩
  show _ ≤ src'.text.size
  rw [hp.text]
  refine hp.fits.shift_le_size ?_ ho
  rcases h with ⟨-, h⟩ | ⟨-, h⟩
  · exact .inl h
  · exact .inr (by omega)

/-- A match that has not looked at the edit moves on in the edited text if it has in the old one. -/
theorem Sound.carry_eq_iff (h : p.Crosses o m) (hom : o ≤ m) (hm : m ≤ ctx.source.size) :
    p.edit.carry m = p.edit.carry o ↔ m = o := by
  have h₁ := hp.invoked_le
  have h₂ := hp.offset_lt
  have h₃ := hp.le_stop
  have h₄ := hp.invoked_lt
  have h₅ := hp.stop_le
  rcases h with h | h | ⟨ho, h⟩
  · rw [hp.carry_eq h, hp.carry_eq (by omega)]
  · rw [hp.carry_behind h (by omega), hp.carry_behind (Nat.le_trans h hom) (by omega)]
    omega
  · rw [hp.carry_eq (Nat.le_trans ho h₁), hp.carry_behind h (by omega)]
    rw [hp.carry_behind (Nat.le_refl _) (by omega)] at h₄
    omega

/-- Two offsets outside of the old node that become the same are the place of the edit and the end of
the old node; the old node starts in front of them. -/
theorem Sound.carry_inj (ho : p.Outside o) (hm : p.Outside m) (hos : o ≤ ctx.source.size)
    (hms : m ≤ ctx.source.size) (heq : p.edit.carry o = p.edit.carry m) (hne : o ≠ m) :
    (o = p.edit.offset ∨ m = p.edit.offset) ∧ p.invoked < p.edit.offset := by
  have h₁ := hp.invoked_le
  have h₂ := hp.offset_lt
  have h₃ := hp.le_stop
  have h₄ := hp.invoked_lt
  have h₅ := hp.stop_le
  rw [hp.carry_behind (Nat.le_refl _) (by omega)] at h₄
  rcases ho with ho | ho
  · rcases hm with hm | hm
    · rw [hp.carry_eq ho, hp.carry_eq hm] at heq
      exact absurd heq hne
    · rw [hp.carry_eq ho, hp.carry_behind hm (by omega)] at heq
      omega
  · rcases hm with hm | hm
    · rw [hp.carry_behind ho (by omega), hp.carry_eq hm] at heq
      omega
    · rw [hp.carry_behind ho (by omega), hp.carry_behind hm (by omega)] at heq
      omega

end Sound

end Patch

theorem Key.eq_of {k k' : Key} (hsymbol : k.symbol = k'.symbol) (hoffset : k.offset = k'.offset) :
    k = k' := by
  cases k
  cases k'
  cases hsymbol
  cases hoffset
  rfl

/-! ### What is charged for a trace -/

/-- An event charges an offset to a frame that keeps a yield: it has looked at it itself, or brings a
node that is not kept and has examined it. -/
def Event.Charges (y : Yield) : Event → Nat → Prop
  | .saw l, x => l.start ≤ x ∧ x < l.stop
  | .took e, x => e.reads.mem x
      ∨ ∃ n ∈ e.outcome.nodes, (∀ m ∈ y.nodes, m.1 ≠ n.1) ∧ n.2.Examined x

/-- The nodes of an entry stand under the offset at which they were asked for, which is in the text. -/
def Entry.Keyed (ctx : Context) (e : Entry) : Prop :=
  ∀ n ∈ e.outcome.nodes, n.2.info.invoked = n.1.offset ∧ n.1.offset ≤ ctx.source.size

/-- A yield whose nodes were taken over in a trace. -/
structure Sourced (ctx : Context) (y : Yield) (tr : List Event) : Prop where
  proper : ∀ e, .took e ∈ tr → e.Proper ctx
  watchful : ∀ e, .took e ∈ tr → e.Watchful ctx
  keyed : ∀ e, .took e ∈ tr → e.Keyed ctx
  nodes : ∀ n ∈ y.nodes, n.2.Nested ∧ ∃ e, .took e ∈ tr ∧ n ∈ e.outcome.nodes

variable {ctx : Context} {g : Goal} {o stop : Nat} {out : Outcome} {y : Yield} {tr tr' : List Event}

theorem token_keyed (ho : o ≤ ctx.source.size) (kind : TokenKind) :
    (tokenEntryOf ctx kind o).Keyed ctx := by
  intro n hn
  obtain ⟨m, hm, rfl⟩ := mem_nodes_flat.1 hn
  have hshape := tokenResult_shape ctx 0 kind ⟨tokenSymbol ctx kind, o⟩
  generalize tokenResult ctx 0 kind ⟨tokenSymbol ctx kind, o⟩ = e at hm hshape
  cases hshape with
  | leaf info _ _ hinvoked _ _ =>
    rw [Outcome.nodes_one] at hm
    cases Array.mem_singleton.1 hm
    rw [flatNode, Subtree.info_flat]
    exact ⟨hinvoked, ho⟩
  | bare stop => simp [Outcome.nodes, Yield.nodes, Yield.empty, Yield.pieces] at hm
  | fail => simp [Outcome.nodes] at hm

theorem rule_keyed (ho : o ≤ ctx.source.size) {id : Nat} {rule : Rule}
    (hd : Derives ctx (.expr rule.pattern) (skipped ctx o).1 out tr)
    (htr : ∀ e, .took e ∈ tr → e.Keyed ctx) : (ruleEntryOf ctx id rule o out tr).Keyed ctx := by
  intro n hn
  obtain ⟨m, hm, rfl⟩ := mem_nodes_flat.1 hn
  rw [flatNode, Subtree.info_flat]
  cases out with
  | fail => simp [ruleResult, Outcome.nodes] at hm
  | ok stop y =>
    by_cases hfragment : rule.isFragment = true
    · rw [ruleResult_fragment hfragment] at hm
      obtain ⟨e, he, hmem⟩ := hd.nodes_took (show m ∈ (Outcome.ok stop y).nodes from hm)
      exact htr e he m hmem
    · rw [ruleResult_node (by simpa using hfragment), Outcome.nodes_one] at hm
      cases Array.mem_singleton.1 hm
      obtain ⟨value, hvalue⟩ := y.wrap_info ctx (ruleInfo ctx 0 rule ⟨id, o⟩ (skipped ctx o).1 stop
        ((Frame.after {} ((skipped ctx o).2.map .saw ++ tr)).settle y))
      rw [hvalue]
      exact ⟨rfl, ho⟩

/-- Everything that is taken over brings nodes under the offset at which they were asked for. -/
theorem Derives.keyed (h : Derives ctx g o out tr) (ho : o ≤ ctx.source.size) :
    ∀ e, .took e ∈ tr → e.Keyed ctx :=
  h.entries_induct (fun kind _ ho => token_keyed ho kind)
    (fun _ _ _ _ _ ho _ hd htr => rule_keyed ho hd htr) ho

/-- What a derivation yields was taken over in its trace, also if looks stand around this. -/
theorem Derives.sourced (h : Derives ctx g o out tr) (ho : o ≤ ctx.source.size)
    (htr : ∀ e, .took e ∈ tr' ↔ .took e ∈ tr) (hy : ∀ n ∈ y.nodes, n ∈ out.nodes) :
    Sourced ctx y tr' where
  proper := fun e he => h.proper ho e ((htr e).1 he)
  watchful := fun e he => h.watchful ho e ((htr e).1 he)
  keyed := fun e he => h.keyed ho e ((htr e).1 he)
  nodes := by
    intro n hn
    obtain ⟨e, he, hmem⟩ := h.nodes_took (hy n hn)
    refine ⟨?_, e, (htr e).2 he, hmem⟩
    have hout := hy n hn
    cases out with
    | fail => simp [Outcome.nodes] at hout
    | ok stop y' => exact (h.wellmade ho hout).nested

/-- What is charged to a frame is what its events charge. -/
theorem Sourced.mem_settle_iff (h : Sourced ctx y tr) (x : Nat) :
    ((Frame.after {} tr).settle y).mem x ↔ ∃ ev ∈ tr, ev.Charges y x := by
  obtain ⟨hordered, hreads, htouched⟩ := Frame.after_spec (f := {}) Footprint.ordered_empty
    fun e he => (h.proper e he).toOrderly
  have hnodes : ∀ n, n ∈ (Frame.after {} tr).touched → n.2.Orderly := by
    intro n hn
    rcases (htouched n).1 hn with hn | ⟨e, he, hmem⟩
    · simp at hn
    · exact (h.proper e he).nodes n hmem
  rw [(Frame.settle_spec hordered hnodes y).2 x, hreads x]
  constructor
  · rintro ((hx | ⟨l, hl, hx⟩ | ⟨e, he, hx⟩) | ⟨n, hn, hkept, hx⟩)
    · exact absurd hx Footprint.not_mem_empty
    · exact ⟨_, hl, hx⟩
    · exact ⟨_, he, .inl hx⟩
    · rcases (htouched n).1 hn with hn | ⟨e, he, hmem⟩
      · simp at hn
      · exact ⟨_, he, .inr ⟨n, hmem, hkept, hx⟩⟩
  · rintro ⟨ev, hev, hx⟩
    cases ev with
    | saw l => exact .inl (.inr (.inl ⟨l, hev, hx⟩))
    | took e =>
      rcases hx with hx | ⟨n, hn, hkept, hx⟩
      · exact .inl (.inr (.inr ⟨e, hev, hx⟩))
      · exact .inr ⟨n, (htouched n).2 (.inr ⟨e, hev, hn⟩), hkept, hx⟩

/-- Nodes that were taken over have no depth. -/
theorem Sourced.flat_eq (h : Sourced ctx y tr) : ∀ n ∈ y.nodes, flatNode n = n := by
  intro n hn
  obtain ⟨-, e, he, hmem⟩ := h.nodes n hn
  exact ((h.proper e he).made n hmem).flat_eq

/-- A failed match charges everything. -/
theorem Frame.settle_empty (f : Frame) : f.settle .empty = f.total := by
  rw [Frame.settle_eq, Frame.total, ← Array.foldl_toList]
  have hkeeps : ∀ k, Yield.empty.keeps k = false := by
    intro k
    rw [← Bool.not_eq_true, Yield.keeps_iff]
    simp [Yield.nodes, Yield.empty, Yield.pieces]
  simp only [hkeeps, Bool.false_eq_true, if_false]

namespace Patch

variable {p : Patch} {src' : Source}

/-! ### Clean traces -/

/-- An event has not looked at the stretch that the edit touches, other than in the old node. -/
def Clean (p : Patch) : Event → Prop
  | .saw l => p.edit.Misses fun x => l.start ≤ x ∧ x < l.stop
  | .took e => p.edit.Misses e.reads.mem ∧ ∀ n ∈ e.outcome.nodes, p.Shields n.2

/-- If nothing of the touched stretch is charged to a frame, and the nodes that it keeps shield the
stretch, its trace is clean. -/
theorem clean_of_settle (h : Sourced ctx y tr)
    (hmisses : p.edit.Misses ((Frame.after {} tr).settle y).mem)
    (hshields : ∀ n ∈ y.nodes, p.Shields n.2) : ∀ ev ∈ tr, p.Clean ev := by
  have hcharges : ∀ ev ∈ tr, p.edit.Misses (ev.Charges y) :=
    fun ev hev => hmisses.mono fun x hx => (h.mem_settle_iff x).2 ⟨ev, hev, hx⟩
  intro ev hev
  cases ev with
  | saw l => exact hcharges _ hev
  | took e =>
    refine ⟨(hcharges _ hev).mono fun x hx => .inl hx, fun n hn => ?_⟩
    by_cases hkept : ∀ m ∈ y.nodes, m.1 ≠ n.1
    · exact shields_of_misses ((hcharges _ hev).mono fun x hx => .inr ⟨n, hn, hkept, hx⟩)
    · -- a node that is kept under the same key is the same node
      push Not at hkept
      obtain ⟨m, hm, hkey⟩ := hkept
      obtain ⟨-, e', he', hmem⟩ := h.nodes m hm
      have := Made.unique ((h.proper e' he').made m hmem) ((h.proper e hev).made n hn) hkey
      exact this ▸ hshields m hm

/-- A match that has not looked at the edit stays on its side of it, or has passed over the old node. -/
theorem crosses_of_clean (hp : p.Sound ctx src') (h : Derives ctx g o (.ok stop y) tr)
    (ho : o ≤ ctx.source.size) (hout : p.Outside o) (hclean : ∀ ev ∈ tr, p.Clean ev) :
    p.Crosses o stop := by
  rcases hout with hle | hge
  · rcases Nat.lt_or_ge p.edit.offset stop with hlt | hge
    · have hlaid := h.laid ho rfl
      rcases hlaid.looked _ hle hlt with ⟨ev, hev, hx⟩ | ⟨n, hn, h₁, h₂⟩
      · -- no event of the trace has looked at the edit itself
        cases ev with
        | saw l => exact absurd hx (hclean _ hev).offset
        | took e => exact absurd hx (hclean _ hev).1.offset
      · -- a node that is yielded has, so the old one stands in it
        obtain ⟨hinvoked, hstop, -, hsees⟩ := hlaid.within _ (Yield.mem_nodes.1 hn)
        obtain ⟨i, hi, hread, -⟩ := hsees _ h₁ h₂
        obtain ⟨e, he, hmem⟩ := h.nodes_took (show n ∈ (Outcome.ok stop y).nodes from hn)
        have hold := ((hclean _ he).2 n hmem).old_mem fun hmisses => hmisses.offset ⟨i, hi, hread⟩
        obtain ⟨-, -, hinvoked', hstop'⟩ := hp.old_info
        have hwithin := (h.wellmade ho hn).nested.nodes_within _ (Subtree.info_mem_of_parts hold)
        rw [hinvoked', hstop'] at hwithin
        exact .inr (.inr ⟨by omega, by omega⟩)
    · exact .inl hge
  · exact .inr (.inl hge)

/-! ### Traces that turn into each other -/

/-- A node under its key, and what becomes of it. -/
structure NodeTurns (p : Patch) (n n' : Key × Subtree) : Prop where
  symbol : n'.1.symbol = n.1.symbol
  offset : n'.1.offset = p.edit.carry n.1.offset
  outside : p.Outside n.1.offset
  tree : p.Turns n.2 n'.2

/-- An outcome, and what becomes of it. -/
def OutcomeTurns (p : Patch) : Outcome → Outcome → Prop :=
  Outcome.Alike (fun o o' => o' = p.edit.carry o) p.NodeTurns

/-- An event, and what becomes of it. -/
inductive Follows (p : Patch) : Event → Event → Prop
  | saw {l l' : Look} : p.edit.Takes (fun x => l.start ≤ x ∧ x < l.stop)
      (fun x => l'.start ≤ x ∧ x < l'.stop) → Follows p (.saw l) (.saw l')
  | took {e e' : Entry} : p.edit.Takes e.reads.mem e'.reads.mem → p.OutcomeTurns e.outcome e'.outcome →
      Follows p (.took e) (.took e')

theorem NodeTurns.key_eq {n n' m m' : Key × Subtree} (hn : p.NodeTurns n n') (hm : p.NodeTurns m m')
    (hkey : m.1 = n.1) : m'.1 = n'.1 := by
  have hsymbol : m'.1.symbol = n'.1.symbol := by rw [hm.symbol, hn.symbol, hkey]
  have hoffset : m'.1.offset = n'.1.offset := by rw [hm.offset, hn.offset, hkey]
  exact Key.eq_of hsymbol hoffset

section Settle

variable (hp : p.Sound ctx src') {n n' m m' : Key × Subtree}

include hp

/-- Nodes whose keys become the same had the same key, if the one has looked at something outside of the
touched stretch and the other one shields the stretch. -/
theorem key_eq_of_turns (hn : p.NodeTurns n n') (hm : p.NodeTurns m m') (hmade : m' = n')
    (hnkey : n.2.info.invoked = n.1.offset ∧ n.1.offset ≤ ctx.source.size)
    (hmkey : m.2.info.invoked = m.1.offset ∧ m.1.offset ≤ ctx.source.size)
    (hwatchful : n.2.Watchful ∧ m.2.Watchful) (hnested : m.2.Nested) (hshields : p.Shields m.2)
    (hmisses : p.edit.Misses n.2.Examined) {x : Nat} (hx : n.2.Examined x) : m.1 = n.1 := by
  subst hmade
  have hsymbol : m.1.symbol = n.1.symbol := hm.symbol.symm.trans hn.symbol
  by_contra hne
  have hoffset : m.1.offset ≠ n.1.offset := fun heq => hne (Key.eq_of hsymbol heq)
  obtain ⟨hplace, hlt⟩ := hp.carry_inj hm.outside hn.outside hmkey.2 hnkey.2
    (hm.offset.symm.trans hn.offset) hoffset
  rcases hplace with hplace | hplace
  · -- the other node begins at the edit, so the old one is not part of it, and it has looked at nothing
    have hmiss : p.edit.Misses m.2.Examined := by
      by_contra hread
      have hwithin := hnested.nodes_within _ (Subtree.info_mem_of_parts (hshields.old_mem hread))
      rw [hp.old_info.2.2.1] at hwithin
      omega
    obtain ⟨z, hz, -⟩ := (hm.tree.examined hp.examined hmiss _).1
      ((hn.tree.examined hp.examined hmisses _).2 ⟨x, hx, rfl⟩)
    have := (hwatchful.2.begins z hz).2
    rw [hmkey.1, hplace] at this
    exact hmiss.offset this
  · have := (hwatchful.1.begins x hx).2
    rw [hnkey.1, hplace] at this
    exact hmisses.offset this

/-- **What is charged to a frame is carried along.** -/
theorem settle_takes {y' : Yield} (h : Sourced ctx y tr) (h' : Sourced (ctx.on src') y' tr')
    (htr : List.Forall₂ p.Follows tr tr')
    (hy : y.Alike (fun o o' => o' = p.edit.carry o) p.NodeTurns y')
    (hmisses : p.edit.Misses ((Frame.after {} tr).settle y).mem)
    (hshields : ∀ n ∈ y.nodes, p.Shields n.2) :
    p.edit.Takes ((Frame.after {} tr).settle y).mem ((Frame.after {} tr').settle y').mem := by
  have hyield := hy.nodes
  refine Edit.Takes.congr (Edit.takes_exists htr fun ev ev' hev hev' hfollows => ?_) h.mem_settle_iff
    h'.mem_settle_iff
  cases hfollows with
  | saw htakes => exact htakes
  | @took e e' hreads hout =>
    refine hreads.or ?_
    simp only [← Array.mem_toList_iff]
    refine Edit.takes_exists hout.nodes fun n n' hn hn' hturns => ?_
    rw [Array.mem_toList_iff] at hn hn'
    by_cases hkept : ∃ m ∈ y.nodes, m.1 = n.1
    · -- what is kept is kept in both texts
      obtain ⟨m, hm, hkey⟩ := hkept
      obtain ⟨m', hm', hturns'⟩ := exists_of_forall₂_left hyield (Array.mem_toList_iff.2 hm)
      exact Edit.takes_of_empty (fun x hx => hx.1 m (Array.mem_toList_iff.2 hm) hkey)
        fun x hx => hx.1 m' hm' (hturns.key_eq hturns' hkey)
    · -- what is charged was examined off the edit, and no node takes its key in the edited text
      push Not at hkept
      have hmiss : p.edit.Misses n.2.Examined := hmisses.mono fun x hx =>
        (h.mem_settle_iff x).2 ⟨_, hev, .inr ⟨n, hn, hkept, hx⟩⟩
      intro z
      constructor
      · rintro ⟨-, hz⟩
        obtain ⟨x, hx, rfl⟩ := (hturns.tree.examined hp.examined hmiss z).1 hz
        exact ⟨x, ⟨fun m hm => hkept m (Array.mem_toList_iff.1 hm), hx⟩, rfl⟩
      · rintro ⟨x, ⟨-, hx⟩, rfl⟩
        refine ⟨fun m' hm' hkey => ?_, (hturns.tree.examined hp.examined hmiss _).2 ⟨x, hx, rfl⟩⟩
        obtain ⟨m, hm, hturns'⟩ := exists_of_forall₂_right hyield hm'
        rw [Array.mem_toList_iff] at hm hm'
        obtain ⟨hnested, e₁, he₁, hmem⟩ := h.nodes m hm
        obtain ⟨-, e₂, he₂, hmem'⟩ := h'.nodes m' hm'
        have hsame := Made.unique ((h'.proper _ he₂).made m' hmem') ((h'.proper _ hev').made n' hn') hkey
        exact hkept m hm (key_eq_of_turns hp hturns hturns' hsame (h.keyed _ hev n hn)
          (h.keyed _ he₁ m hmem) ⟨(h.watchful _ hev n hn).1, (h.watchful _ he₁ m hmem).1⟩ hnested
          (hshields m hm) hmiss hx)

end Settle

end Patch

end Parse

end Packrat
