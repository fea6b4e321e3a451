import Packrat.Proofs.Parse.Moved

/-!
Two runs on two texts.

A match in one text is compared with the same match in another text, `d` places further on.  If the
second text shows the same wherever the first match has looked, the two stay in step: what they
remember, what their frames have collected and what they yield corresponds at every moment, down to
the spans of every footprint and the depth of every node (`invoke_inStep`).

Where the first match has looked is told by its derivation: the run in the first text follows one, and
`Safe` asks for agreement on everything that its trace has examined.  A rule hands on everything that
was examined inside of it, so agreement on what it has examined is agreement inside.
-/

namespace Packrat

namespace Parse

variable {d : Int}

/-- What is remembered and what is in the frame corresponds. -/
structure State.MovedBy (d : Int) (src' : Source) (s s' : State) : Prop where
  memo : ∀ symbol o o', Offset.MovedBy d o o' →
    Option.Rel (Entry.MovedBy d src') s.memo[(⟨symbol, o⟩ : Key)]? s'.memo[(⟨symbol, o'⟩ : Key)]?
  frame : s.frame.MovedBy d s'.frame

variable {src' : Source}

theorem State.movedBy_empty : State.MovedBy d src' {} {} := by
  refine ⟨fun symbol o o' _ => ?_, .nil, .nil⟩
  simp only [Std.HashMap.getElem?_empty]
  exact .none

/-! ### Evaluations in step -/

/-- Whenever the first evaluation gives a result, the second one gives a corresponding result. -/
def InStep (d : Int) (src' : Source) {α β : Type} (R : α → β → Prop) (m : Eval α) (m' : Eval β)
    (s s' : State) : Prop :=
  ∀ a s₁, m s = .ok a s₁ → ∃ b s₁', m' s' = .ok b s₁' ∧ R a b ∧ s₁.MovedBy d src' s₁'

namespace InStep

variable {α α' β β' : Type} {R : α → α' → Prop} {Q : β → β' → Prop} {m : Eval α} {m' : Eval α'}
  {f : α → Eval β} {f' : α' → Eval β'} {s s' : State}

theorem bind_eq_ok {b : β} {s₂ : State} (h : (m >>= f) s = .ok b s₂) :
    ∃ a s₁, m s = .ok a s₁ ∧ f a s₁ = .ok b s₂ := by
  rw [Eval.bind_apply] at h
  cases hm : m s with
  | ok a s₁ =>
    rw [hm] at h
    exact ⟨a, s₁, rfl, h⟩
  | error e s₁ =>
    rw [hm] at h
    cases h

/-- One evaluation behind the other; that both have an end in the first run can be used. -/
theorem bind (R : α → α' → Prop) (h : ∀ a s₁ b s₂, m s = .ok a s₁ → f a s₁ = .ok b s₂ →
    InStep d src' R m m' s s'
      ∧ ∀ a' s₁', R a a' → s₁.MovedBy d src' s₁' → InStep d src' Q (f a) (f' a') s₁ s₁') :
    InStep d src' Q (m >>= f) (m' >>= f') s s' := by
  intro b s₂ hrun
  obtain ⟨a, s₁, hm, hf⟩ := bind_eq_ok hrun
  obtain ⟨hhead, hrest⟩ := h a s₁ b s₂ hm hf
  obtain ⟨a', s₁', hm', hR, hs₁⟩ := hhead a s₁ hm
  obtain ⟨b', s₂', hf', hQ, hs₂⟩ := hrest a' s₁' hR hs₁ b s₂ hf
  refine ⟨b', s₂', ?_, hQ, hs₂⟩
  rw [Eval.bind_apply, hm']
  exact hf'

theorem of_eq {a : α} {a' : α'} {s₁ s₁' : State} (hm : m s = .ok a s₁) (hm' : m' s' = .ok a' s₁')
    (hR : R a a') (hs : s₁.MovedBy d src' s₁') : InStep d src' R m m' s s' := by
  intro b s₂ hrun
  rw [hm] at hrun
  cases hrun
  exact ⟨a', s₁', hm', hR, hs⟩

/-- The result of the first run is known. -/
theorem mono_eq {a : α} {s₁ : State} (h : InStep d src' R m m' s s') (hm : m s = .ok a s₁) :
    InStep d src' (fun b b' => b = a ∧ R b b') m m' s s' := by
  intro b s₂ hrun
  obtain ⟨b', s₂', hm', hR, hs⟩ := h b s₂ hrun
  rw [hm] at hrun
  cases hrun
  exact ⟨b', s₂', hm', ⟨rfl, hR⟩, hs⟩

theorem congr {n : Eval α} {n' : Eval α'} (hm : m s = n s) (hm' : m' s' = n' s')
    (h : InStep d src' R n n' s s') : InStep d src' R m m' s s' := by
  intro a s₁ hrun
  rw [hm] at hrun
  obtain ⟨b, s₁', hn', hrest⟩ := h a s₁ hrun
  exact ⟨b, s₁', hm'.trans hn', hrest⟩

theorem pure {a : α} {a' : α'} (hR : R a a') (hs : s.MovedBy d src' s') :
    InStep d src' R (Pure.pure a) (Pure.pure a') s s' := of_eq rfl rfl hR hs

end InStep

/-! ### Safety -/

/-- The texts agree on everything that a trace has examined. -/
def Agreed (d : Int) (t t' : Text) (tr : List Event) : Prop :=
  ∀ ev ∈ tr, ∀ x, ev.Examined x → Agrees d t t' x

/-- The texts agree on everything that is examined for a goal. -/
def Safe (ctx : Context) (src' : Source) (d : Int) (g : Goal) (o : Nat) : Prop :=
  ∀ out tr, Derives ctx g o out tr → Agreed d ctx.source.text src'.text tr

variable {ctx : Context} {g : Goal} {o o' : Nat}

theorem Agreed.left {t t' : Text} {tr tr' : List Event} (h : Agreed d t t' (tr ++ tr')) :
    Agreed d t t' tr := fun ev hev => h ev (List.mem_append_left _ hev)

theorem Agreed.right {t t' : Text} {tr tr' : List Event} (h : Agreed d t t' (tr ++ tr')) :
    Agreed d t t' tr' := fun ev hev => h ev (List.mem_append_right _ hev)

theorem Agreed.looks {t t' : Text} {looks : List Look} (h : Agreed d t t' (looks.map .saw)) :
    ∀ l ∈ looks, LookAgrees d t t' l :=
  fun l hl x hx hlt => h (.saw l) (List.mem_map_of_mem hl) x ⟨hx, hlt⟩

theorem Agreed.look {t t' : Text} {l : Look} (h : Agreed d t t' [.saw l]) : LookAgrees d t t' l :=
  fun x hx hlt => h (.saw l) (List.mem_singleton_self _) x ⟨hx, hlt⟩

/-- There is one derivation at most, so agreement on its trace is enough. -/
theorem Safe.intro {out : Outcome} {tr : List Event} (hd : Derives ctx g o out tr)
    (h : Agreed d ctx.source.text src'.text tr) : Safe ctx src' d g o := by
  intro out' tr' hd'
  rw [← (hd.unique hd').2]
  exact h

theorem Safe.of_derives {g' : Goal} (h : Safe ctx src' d g' o)
    (himp : ∀ out tr, Derives ctx g o out tr → ∃ out', Derives ctx g' o out' tr) :
    Safe ctx src' d g o := by
  intro out tr hd
  obtain ⟨out', hd'⟩ := himp out tr hd
  exact h out' tr hd'

/-! ### Matches in step -/

/-- Two matches of a goal stay in step if the texts agree on what is examined for it. -/
def Lockstep (ctx : Context) (src' : Source) (d : Int) (g : Goal) (o : Nat) (m m' : Eval Outcome) :
    Prop :=
  ∀ s s', Sound ctx s.memo → s.MovedBy d src' s' → Safe ctx src' d g o →
    InStep d src' (Outcome.MovedBy d src') m m' s s'

theorem Lockstep.of_derives {g' : Goal} {m m' : Eval Outcome} (h : Lockstep ctx src' d g o m m')
    (himp : ∀ out tr, Derives ctx g o out tr → Derives ctx g' o out tr) :
    Lockstep ctx src' d g' o m m' :=
  fun s s' hs hmoved hsafe =>
    h s s' hs hmoved (hsafe.of_derives fun out tr hd => ⟨out, himp out tr hd⟩)

theorem State.MovedBy.congr {s s' s₁ s₁' : State} (h : s.MovedBy d src' s')
    (hmemo : s₁.memo = s.memo) (hframe : s₁.frame = s.frame) (hmemo' : s₁'.memo = s'.memo)
    (hframe' : s₁'.frame = s'.frame) : s₁.MovedBy d src' s₁' := by
  refine ⟨?_, ?_⟩
  · rw [hmemo, hmemo']
    exact h.memo
  · rw [hframe, hframe']
    exact h.frame

theorem State.MovedBy.consume {s s' : State} (h : s.MovedBy d src' s') {e e' : Entry}
    (he : e.MovedBy d src' e') :
    State.MovedBy d src' { s with frame := s.frame.consume e }
      { s' with frame := s'.frame.consume e' } := ⟨h.memo, h.frame.consume he⟩

/-- Corresponding outcomes are remembered under corresponding keys. -/
theorem State.MovedBy.insert {s s' : State} (h : s.MovedBy d src' s') {symbol : Nat}
    (ho : Offset.MovedBy d o o') {e e' : Entry} (he : e.MovedBy d src' e') :
    State.MovedBy d src' { s with memo := s.memo.insert ⟨symbol, o⟩ e }
      { s' with memo := s'.memo.insert ⟨symbol, o'⟩ e' } := by
  refine ⟨fun symbol₂ x x' hx => ?_, h.frame⟩
  simp only [Std.HashMap.getElem?_insert]
  by_cases heq : symbol = symbol₂ ∧ o = x
  · have heq' : o' = x' := (ho.eq_iff hx).2 heq.2
    rw [if_pos (by simp [heq.1, heq.2]), if_pos (by simp [heq.1, heq'])]
    exact .some he
  · have heq' : ¬(symbol = symbol₂ ∧ o' = x') := by rwa [ho.eq_iff hx]
    rw [if_neg (by simpa using heq), if_neg (by simpa using heq')]
    exact h.memo symbol₂ x x' hx

theorem remember_hit {key : Key} {compute : Eval Entry} {s : State} {e : Entry}
    (h : s.memo[key]? = some e) :
    Eval.remember key compute s = .ok e.outcome { s with frame := s.frame.consume e } := by
  unfold Eval.remember
  rw [Eval.bind_apply, Eval.get_apply]
  simp only [h]
  rfl

theorem remember_miss {key : Key} {compute : Eval Entry} {s : State} (h : s.memo[key]? = none) :
    Eval.remember key compute s = (compute >>= fun e => do
      modify fun s => { s with memo := s.memo.insert key e }
      Eval.consume e
      return e.outcome) s := by
  unfold Eval.remember
  rw [Eval.bind_apply, Eval.get_apply]
  simp only [h]

/-- What is remembered in one run is remembered in the other. -/
theorem remember_lockstep {symbol : Nat} {compute compute' : Eval Entry}
    (ho : Offset.MovedBy d o o')
    (hcompute : ∀ s s', Sound ctx s.memo → s.MovedBy d src' s' → Safe ctx src' d g o →
      InStep d src' (Entry.MovedBy d src') compute compute' s s') :
    Lockstep ctx src' d g o (Eval.remember ⟨symbol, o⟩ compute)
      (Eval.remember ⟨symbol, o'⟩ compute') := by
  intro s s' hs hmoved hsafe
  have hmem := hmoved.memo symbol o o' ho
  cases hm : s.memo[(⟨symbol, o⟩ : Key)]? with
  | some e =>
    cases hm' : s'.memo[(⟨symbol, o'⟩ : Key)]? with
    | none => rw [hm, hm'] at hmem; cases hmem
    | some e' =>
      rw [hm, hm'] at hmem
      cases hmem with
      | some he => exact .of_eq (remember_hit hm) (remember_hit hm') he.outcome (hmoved.consume he)
  | none =>
    cases hm' : s'.memo[(⟨symbol, o'⟩ : Key)]? with
    | some e' => rw [hm, hm'] at hmem; cases hmem
    | none =>
      refine .congr (remember_miss hm) (remember_miss hm')
        (.bind (Entry.MovedBy d src') fun e s₁ b s₂ _ _ => ?_)
      refine ⟨hcompute s s' hs hmoved hsafe, fun e' s₁' he hs₁ => ?_⟩
      exact .of_eq rfl rfl he.outcome ((hs₁.insert ho he).consume he)

/-! ### Ignored text, tokens and names -/

theorem skip_inStep (hfits : ctx.Fits) (ho : o ≤ ctx.source.size) (hp : PlaceMovedBy d src' o o')
    (h : Agreed d ctx.source.text src'.text ((skipped ctx o).2.map .saw)) {s s' : State}
    (hs : s.MovedBy d src' s') :
    InStep d src' (PlaceMovedBy d src') (skip ctx o) (skip (ctx.on src') o') s s' := by
  obtain ⟨hstart, hlooks⟩ := skipped_moved hfits ho hp h.looks
  exact .of_eq (skip_apply ho s) (skip_apply (show o' ≤ (ctx.on src').source.size from hp.2) s') hstart
    ⟨hs.memo, hs.frame.saw hlooks⟩

theorem attempt_inStep (name : Bytes) (o o' : Nat) {s s' : State} (hs : s.MovedBy d src' s') :
    InStep d src' (fun _ _ => True) (Eval.attempt name o) (Eval.attempt name o') s s' := by
  obtain ⟨s₁, hrun, hmemo, hframe⟩ := Eval.attempt_apply name o s
  obtain ⟨s₁', hrun', hmemo', hframe'⟩ := Eval.attempt_apply name o' s'
  exact .of_eq hrun hrun' trivial (hs.congr hmemo hframe hmemo' hframe')

theorem matchToken_lockstep (hfits : ctx.Fits) (ho : o ≤ ctx.source.size)
    (hp : PlaceMovedBy d src' o o') (depth : Nat) (kind : TokenKind) :
    Lockstep ctx src' d (.token kind) o (matchToken ctx depth kind o)
      (matchToken (ctx.on src') depth kind o') := by
  refine remember_lockstep hp.1 fun s s' hs hmoved hsafe => ?_
  have hlooks : ∀ l ∈ tokenLooks ctx kind o, LookAgrees d ctx.source.text src'.text l := by
    intro l hl x hx hlt
    have htoken : Derives ctx (.token kind) o (tokenEntryOf ctx kind o).outcome
        [.took (tokenEntryOf ctx kind o)] := .token rfl rfl
    exact hsafe _ _ htoken _ (List.mem_singleton_self _) x ((examined_token kind x).2 ⟨l, hl, hx, hlt⟩)
  obtain ⟨s₁, hrun, hmemo, hframe⟩ :=
    tokenEntry_apply depth kind (show (⟨tokenSymbol ctx kind, o⟩ : Key).offset ≤ _ from ho) s
  obtain ⟨s₁', hrun', hmemo', hframe'⟩ := tokenEntry_apply depth kind
    (show (⟨tokenSymbol ctx kind, o'⟩ : Key).offset ≤ (ctx.on src').source.size from hp.2) s'
  exact .of_eq hrun hrun' (tokenResult_moved hfits ho hp hlooks)
    (hmoved.congr hmemo hframe hmemo' hframe')

/-- Two ways to match rules that stay in step. -/
def Invoke.Lockstep (ctx : Context) (src' : Source) (d : Int) (call call' : Invoke) : Prop :=
  ∀ id o o', id < ctx.grammar.rules.size → o ≤ ctx.source.size → PlaceMovedBy d src' o o' →
    Parse.Lockstep ctx src' d (.rule id) o (call id o) (call' id o')

theorem attempt_fail_lockstep (name : Bytes) :
    Lockstep ctx src' d g o (do Eval.attempt name o; return .fail)
      (do Eval.attempt name o'; return .fail) := by
  intro s s' _ hmoved _
  refine .bind (fun _ _ => True) fun _ s₁ _ _ _ _ => ⟨attempt_inStep name o o' hmoved, ?_⟩
  exact fun _ s₁' _ hs₁ => .pure .fail hs₁

theorem matchName_lockstep (hfits : ctx.Fits) {call call' : Invoke}
    (hcall : call.Lockstep ctx src' d call') (ho : o ≤ ctx.source.size)
    (hp : PlaceMovedBy d src' o o') (depth : Nat) (name : Bytes) :
    Lockstep ctx src' d (.name name) o (matchName ctx call depth name o)
      (matchName (ctx.on src') call' depth name o') := by
  unfold matchName
  rw [show (ctx.on src').grammar = ctx.grammar from rfl]
  cases hfind : ctx.grammar.find? name with
  | some id => exact (hcall id o o' (find?_lt_size hfind) ho hp).of_derives fun _ _ => .name_rule hfind
  | none =>
    dsimp only
    cases hkind : TokenKind.ofName? name with
    | some kind =>
      dsimp only
      split
      · exact attempt_fail_lockstep name
      · next hres =>
        exact (matchToken_lockstep hfits ho hp depth kind).of_derives fun _ _ =>
          .name_token hfind hkind (by simpa using hres)
    | none => exact attempt_fail_lockstep name

/-! ### Atoms -/

theorem scan_inStep {l l' : Look} (hl : l.MovedBy d l') (hne : l.reach ≠ .beyond)
    (hne' : l'.reach ≠ .beyond) {found found' : Nat → Outcome}
    (hout : Outcome.MovedBy d src' (scanned l found) (scanned l' found')) {s s' : State}
    (hs : s.MovedBy d src' s') :
    InStep d src' (Outcome.MovedBy d src') (Eval.scan l found) (Eval.scan l' found') s s' :=
  .of_eq (scan_apply hne s) (scan_apply hne' s') hout
    ⟨hs.memo, hs.frame.reads.note hl, hs.frame.touched⟩

theorem matchByte_inStep {inside : UInt8 → Bool} (ho : o ≤ ctx.source.size)
    (hp : PlaceMovedBy d src' o o')
    (h : LookAgrees d ctx.source.text src'.text (Scan.byte ctx.source.text inside o)) {s s' : State}
    (hs : s.MovedBy d src' s') :
    InStep d src' (Outcome.MovedBy d src') (matchByte ctx inside o)
      (matchByte (ctx.on src') inside o') s s' := by
  obtain ⟨hl, hout⟩ := byte_scanned_moved ho hp h
  exact scan_inStep hl (Scan.byte_inside ho inside).ne_beyond (Scan.byte_inside hp.2 inside).ne_beyond
    hout hs

theorem matchAtom_lockstep (hfits : ctx.Fits) {call call' : Invoke}
    (hcall : call.Lockstep ctx src' d call') (ho : o ≤ ctx.source.size)
    (hp : PlaceMovedBy d src' o o') (depth : Nat) (label : Option Bytes) (a : Atom) :
    Lockstep ctx src' d (.expr (.atom label a)) o (matchAtom ctx call depth a o)
      (matchAtom (ctx.on src') call' depth a o') := by
  unfold matchAtom
  cases a with
  | literal text =>
    intro s s' _ hmoved hsafe
    have hagreed := hsafe _ _ (.literal rfl rfl)
    refine .bind (fun start start' => start = (skipped ctx o).1 ∧ PlaceMovedBy d src' start start')
      fun _ s₁ _ _ _ _ => ⟨?_, ?_⟩
    · exact (skip_inStep hfits ho hp hagreed.left hmoved).mono_eq (skip_apply ho s)
    · rintro start' s₁' ⟨rfl, hstart⟩ hs₁
      have hsize := (skipped_linked ho).stop_le
      obtain ⟨hl, hout⟩ := literal_scanned_moved hsize hstart hagreed.right.look
      exact scan_inStep hl (Scan.literal_inside hsize text (isWord text)).ne_beyond
        (Scan.literal_inside hstart.2 text (isWord text)).ne_beyond hout hs₁
  | charClass c =>
    intro s s' _ hmoved hsafe
    exact matchByte_inStep ho hp (hsafe _ _ (.charClass rfl rfl)).look hmoved
  | anyByte =>
    intro s s' _ hmoved hsafe
    exact matchByte_inStep ho hp (hsafe _ _ (.anyByte rfl rfl)).look hmoved
  | rule name => exact (matchName_lockstep hfits hcall ho hp depth name).of_derives fun _ _ => .ruleAtom
  | token kind => exact (matchToken_lockstep hfits ho hp depth kind).of_derives fun _ _ => .tokenAtom

/-! ### Operators -/

/-- Rounds of a repetition; both runs are allowed more of them than there can be. -/
theorem matchMany_inStep {e : Expr} {body body' : Nat → Eval Outcome}
    (hbody : ∀ o, o ≤ ctx.source.size → Tracks ctx (.expr e) o (body o))
    (hstep : ∀ o o', o ≤ ctx.source.size → PlaceMovedBy d src' o o' →
      Lockstep ctx src' d (.expr e) o (body o) (body' o'))
    {fuel fuel' count : Nat} (ho : o ≤ ctx.source.size) (hp : PlaceMovedBy d src' o o')
    (hfuel : ctx.source.size - o < fuel) (hfuel' : src'.size - o' < fuel') {ps ps' : Array Piece}
    (hps : List.Forall₂ (Piece.Alike (PlaceMovedBy d src') (NodeMovedBy d)) ps.toList ps'.toList)
    {s s' : State} (hs : Sound ctx s.memo) (hmoved : s.MovedBy d src' s')
    (hsafe : Safe ctx src' d (.many e) o) :
    InStep d src' (fun r r' => r'.1 = r.1 ∧ PlaceMovedBy d src' r.2.1 r'.2.1
        ∧ List.Forall₂ (Piece.Alike (PlaceMovedBy d src') (NodeMovedBy d)) r.2.2.toList r'.2.2.toList)
      (matchMany body fuel count o ps) (matchMany body' fuel' count o' ps') s s' := by
  induction fuel generalizing fuel' count o o' ps ps' s s' with
  | zero => omega
  | succ fuel ih =>
    obtain ⟨fuel', rfl⟩ : ∃ k, fuel' = k + 1 := ⟨fuel' - 1, by omega⟩
    rw [matchMany, matchMany]
    refine .bind (Outcome.MovedBy d src') fun out s₁ r s₂ hrun hrest => ?_
    obtain ⟨hs₁, tr, hd, -⟩ := (hbody o ho s hs).of_run hrun
    cases out with
    | fail =>
      have hone : Safe ctx src' d (.expr e) o := .intro hd (hsafe _ _ (.many_fail hd))
      refine ⟨hstep o o' ho hp s s' hs hmoved hone, fun out' s₁' hout hs₁' => ?_⟩
      cases hout
      exact .pure ⟨rfl, hp, hps⟩ hs₁'
    | ok m y =>
      dsimp only at hrest
      have hb := hd.bounds ho rfl
      by_cases heq : m = o
      · subst heq
        have hone : Safe ctx src' d (.expr e) m := .intro hd (hsafe _ _ (.many_stay hd))
        refine ⟨hstep m o' ho hp s s' hs hmoved hone, fun out' s₁' hout hs₁' => ?_⟩
        cases hout with
        | ok hstop hy =>
          have heq' := (hstop.1.eq_iff hp.1).2 rfl
          dsimp only
          rw [if_pos rfl, if_pos heq']
          exact .pure ⟨rfl, hp, hps⟩ hs₁'
      · rw [if_neg heq] at hrest
        -- the rounds that follow have a derivation as well
        obtain ⟨-, -, -, qs, tr', -, hd', -⟩ :=
          (matchMany_ends hbody hb.2 (by omega) hs₁).of_run hrest
        have hagreed := hsafe _ _ (.many_more hd heq hd')
        refine ⟨hstep o o' ho hp s s' hs hmoved (.intro hd hagreed.left), fun out' s₁' hout hs₁' => ?_⟩
        cases hout with
        | @ok _ m' _ y' hstop hy =>
          have heq' : m' ≠ o' := fun h => heq ((hstop.1.eq_iff hp.1).1 h)
          have hlt := (hp.1.lt_iff hstop.1).2 (Nat.lt_of_le_of_ne hb.1 (Ne.symm heq))
          have hle := hstop.2
          dsimp only
          rw [if_neg heq, if_neg heq']
          exact ih hb.2 hstop (by omega) (by omega) (hy.append hps) hs₁ hs₁' (.intro hd' hagreed.right)

/-- An operator that matches its operand once. -/
theorem Lockstep.once {g g' : Goal} {body body' : Eval Outcome}
    (hbody : Lockstep ctx src' d g o body body') {none none' : Outcome}
    {some some' : Nat → Yield → Outcome}
    (himp : ∀ out tr, Derives ctx g o out tr → ∃ out', Derives ctx g' o out' tr)
    (hnone : none.MovedBy d src' none')
    (hsome : ∀ stop stop' y y', PlaceMovedBy d src' stop stop' →
      y.Alike (PlaceMovedBy d src') (NodeMovedBy d) y' →
      (some stop y).MovedBy d src' (some' stop' y')) :
    Lockstep ctx src' d g' o
      (do match ← body with
          | .fail => return none
          | .ok stop y => return some stop y)
      (do match ← body' with
          | .fail => return none'
          | .ok stop y => return some' stop y) := by
  intro s s' hs hmoved hsafe
  refine .bind (Outcome.MovedBy d src') fun out s₁ _ _ _ _ => ?_
  refine ⟨hbody s s' hs hmoved (hsafe.of_derives himp), fun out' s₁' hout hs₁ => ?_⟩
  cases hout with
  | fail => exact .pure hnone hs₁
  | ok hstop hy => exact .pure (hsome _ _ _ _ hstop hy) hs₁

theorem matchOperator_lockstep {e : Expr} {body body' : Nat → Eval Outcome}
    (hbody : ∀ o, o ≤ ctx.source.size → Tracks ctx (.expr e) o (body o))
    (hstep : ∀ o o', o ≤ ctx.source.size → PlaceMovedBy d src' o o' →
      Lockstep ctx src' d (.expr e) o (body o) (body' o'))
    (ho : o ≤ ctx.source.size) (hp : PlaceMovedBy d src' o o') (label : Option Bytes) (op : Operator) :
    Lockstep ctx src' d (.expr (.apply label op e)) o (matchOperator ctx op body o)
      (matchOperator (ctx.on src') op body' o') := by
  unfold matchOperator
  have hempty : Outcome.MovedBy d src' (.ok o .empty) (.ok o' .empty) := .ok hp Yield.alike_empty
  have hbody' := hstep o o' ho hp
  -- the two kinds of repetition
  have repeated : ∀ {least : Nat} {g : Goal},
      (∀ out tr, Derives ctx (.many e) o out tr → ∃ out', Derives ctx g o out' tr) →
      Lockstep ctx src' d g o (matchRepetition ctx least body o)
        (matchRepetition (ctx.on src') least body' o') := by
    intro least g himp s s' hs hmoved hsafe
    unfold matchRepetition
    refine .bind _ fun r s₁ _ _ _ _ => ⟨matchMany_inStep hbody hstep ho hp (by omega)
      (show src'.size - o' < src'.size + 2 by omega) .nil hs hmoved (hsafe.of_derives himp), ?_⟩
    rintro ⟨count', stop', ps'⟩ s₁' ⟨hcount, hstop, hps⟩ hs₁
    simp only at hcount hstop hps
    subst hcount
    refine .pure ?_ hs₁
    split
    · exact .fail
    · exact .ok hstop (.many hps)
  cases op with
  | star => exact repeated fun out tr h => ⟨out, .star h⟩
  | plus =>
    refine repeated fun out tr h => ?_
    obtain ⟨stop, y, rfl⟩ := h.many_eq_ok
    by_cases heq : stop = o
    · subst heq
      exact ⟨_, .plus_fail h⟩
    · exact ⟨_, .plus h heq⟩
  | option =>
    refine hbody'.once (fun out tr h => ?_) hempty fun _ _ _ _ hstop hy => .ok hstop hy
    cases out with
    | fail => exact ⟨_, .option_fail h⟩
    | ok stop y => exact ⟨_, .option h⟩
  | ahead =>
    refine hbody'.once (fun out tr h => ?_) .fail fun _ _ _ _ _ _ => hempty
    cases out with
    | fail => exact ⟨_, .ahead_fail h⟩
    | ok stop y => exact ⟨_, .ahead h⟩
  | notAhead =>
    refine hbody'.once (fun out tr h => ?_) hempty fun _ _ _ _ _ _ => .fail
    cases out with
    | fail => exact ⟨_, .notAhead_fail h⟩
    | ok stop y => exact ⟨_, .notAhead h⟩

/-! ### Expressions -/

mutual

theorem matchExpr_lockstep (hfits : ctx.Fits) {call call' : Invoke} (htracks : call.Tracks ctx)
    (hcall : call.Lockstep ctx src' d call') (depth : Nat) :
    ∀ (e : Expr) {o o' : Nat}, o ≤ ctx.source.size → PlaceMovedBy d src' o o' →
      Lockstep ctx src' d (.expr e) o (matchExpr ctx call depth e o)
        (matchExpr (ctx.on src') call' depth e o')
  | .atom label a, o, o', ho, hp => by
    rw [matchExpr, matchExpr]
    exact matchAtom_lockstep hfits hcall ho hp depth label a
  | .apply label op e, o, o', ho, hp => by
    rw [matchExpr, matchExpr]
    exact matchOperator_lockstep (fun _ ho => matchExpr_tracks htracks depth e ho)
      (fun _ _ ho hp => matchExpr_lockstep hfits htracks hcall depth e ho hp) ho hp label op
  | .seq label es, o, o', ho, hp => by
    rw [matchExpr, matchExpr]
    intro s s' hs hmoved hsafe
    exact matchSeq_inStep hfits htracks hcall depth es ho hp .nil hs hmoved
      (hsafe.of_derives fun out tr hd => ⟨out, .seq hd⟩)
  | .choice label es, o, o', ho, hp => by
    rw [matchExpr, matchExpr]
    exact (matchChoice_lockstep hfits htracks hcall depth es ho hp).of_derives fun _ _ => .choice

theorem matchSeq_inStep (hfits : ctx.Fits) {call call' : Invoke} (htracks : call.Tracks ctx)
    (hcall : call.Lockstep ctx src' d call') (depth : Nat) :
    ∀ (es : List Expr) {o o' : Nat}, o ≤ ctx.source.size → PlaceMovedBy d src' o o' →
      ∀ {ps ps' : Array Piece},
      List.Forall₂ (Piece.Alike (PlaceMovedBy d src') (NodeMovedBy d)) ps.toList ps'.toList →
      ∀ {s s' : State}, Sound ctx s.memo → s.MovedBy d src' s' → Safe ctx src' d (.seq es) o →
      InStep d src' (Outcome.MovedBy d src') (matchSeq ctx call depth es o ps)
        (matchSeq (ctx.on src') call' depth es o' ps') s s'
  | [], o, o', ho, hp, ps, ps', hps, s, s', hs, hmoved, hsafe => by
    rw [matchSeq, matchSeq]
    exact .pure (.ok hp (.many hps)) hmoved
  | e :: es, o, o', ho, hp, ps, ps', hps, s, s', hs, hmoved, hsafe => by
    rw [matchSeq, matchSeq]
    have hexpr := matchExpr_lockstep hfits htracks hcall depth e ho hp s s' hs hmoved
    refine .bind (Outcome.MovedBy d src') fun out s₁ _ s₂ hrun hrest => ?_
    obtain ⟨hs₁, tr, hd, -⟩ := (matchExpr_tracks htracks depth e ho s hs).of_run hrun
    cases out with
    | fail =>
      refine ⟨hexpr (.intro hd (hsafe _ _ (.seq_fail hd))), fun out' s₁' hout hs₁' => ?_⟩
      cases hout
      exact .pure .fail hs₁'
    | ok m y =>
      have hb := hd.bounds ho rfl
      -- the rest has a derivation, be it that it fails or not
      obtain ⟨tr', hd', hagreed⟩ : ∃ tr', (∃ out', Derives ctx (.seq es) m out' tr')
          ∧ Agreed d ctx.source.text src'.text (tr ++ tr') := by
        obtain ⟨-, tr', -, ⟨-, hd'⟩ | ⟨stop, qs, -, hd'⟩⟩ :=
          (matchSeq_ends htracks depth es hb.2 (ps ++ y.pieces) hs₁).of_run hrest
        · exact ⟨tr', ⟨_, hd'⟩, hsafe _ _ (.seq_stop hd hd')⟩
        · exact ⟨tr', ⟨_, hd'⟩, hsafe _ _ (.seq_cons hd hd')⟩
      obtain ⟨_, hd'⟩ := hd'
      refine ⟨hexpr (.intro hd hagreed.left), fun out' s₁' hout hs₁' => ?_⟩
      cases hout with
      | ok hstop hy =>
        exact matchSeq_inStep hfits htracks hcall depth es hb.2 hstop (hy.append hps) hs₁ hs₁'
          (.intro hd' hagreed.right)

theorem matchChoice_lockstep (hfits : ctx.Fits) {call call' : Invoke} (htracks : call.Tracks ctx)
    (hcall : call.Lockstep ctx src' d call') (depth : Nat) :
    ∀ (es : List Expr) {o o' : Nat}, o ≤ ctx.source.size → PlaceMovedBy d src' o o' →
      Lockstep ctx src' d (.choice es) o (matchChoice ctx call depth es o)
        (matchChoice (ctx.on src') call' depth es o')
  | [], o, o', ho, hp => by
    rw [matchChoice, matchChoice]
    exact fun s s' _ hmoved _ => .pure .fail hmoved
  | e :: es, o, o', ho, hp => by
    rw [matchChoice, matchChoice]
    intro s s' hs hmoved hsafe
    have hexpr := matchExpr_lockstep hfits htracks hcall depth e ho hp s s' hs hmoved
    refine .bind (Outcome.MovedBy d src') fun out s₁ _ s₂ hrun hrest => ?_
    obtain ⟨hs₁, tr, hd, -⟩ := (matchExpr_tracks htracks depth e ho s hs).of_run hrun
    cases out with
    | fail =>
      obtain ⟨-, tr', hd', -⟩ := (matchChoice_tracks htracks depth es ho s₁ hs₁).of_run hrest
      have hagreed := hsafe _ _ (.choice_next hd hd')
      refine ⟨hexpr (.intro hd hagreed.left), fun out' s₁' hout hs₁' => ?_⟩
      cases hout
      exact matchChoice_lockstep hfits htracks hcall depth es ho hp s₁ s₁' hs₁ hs₁'
        (.intro hd' hagreed.right)
    | ok stop y =>
      refine ⟨hexpr (.intro hd (hsafe _ _ (.choice_first hd))), fun out' s₁' hout hs₁' => ?_⟩
      cases hout with
      | ok hstop hy => exact .pure (.ok hstop hy) hs₁'

end

/-! ### Rules -/

/-- Agreement on what a rule has examined is agreement on its whole trace. -/
theorem Safe.inside {id : Nat} {rule : Rule} {out : Outcome} {tr : List Event}
    (h : Safe ctx src' d (.rule id) o) (ho : o ≤ ctx.source.size)
    (hrule : ctx.grammar.rules[id]? = some rule)
    (hd : Derives ctx (.expr rule.pattern) (skipped ctx o).1 out tr) :
    Agreed d ctx.source.text src'.text ((skipped ctx o).2.map .saw ++ tr) := by
  have hagreed := h _ _ (.rule hrule hd (rfl : ruleEntryOf ctx id rule o out tr = _) rfl)
  intro ev hev x hx
  exact hagreed _ (List.mem_singleton_self _) x ((hd.examined_rule ho x).2 ⟨ev, hev, hx⟩)

/-- The same pattern, frame by frame. -/
theorem ruleEntry_inStep (hfits : ctx.Fits) {call call' : Invoke} (htracks : call.Tracks ctx)
    (hcall : call.Lockstep ctx src' d call') (depth : Nat) {id : Nat}
    (hid : id < ctx.grammar.rules.size) (ho : o ≤ ctx.source.size) (hp : PlaceMovedBy d src' o o')
    {s s' : State} (hs : Sound ctx s.memo) (hmoved : s.MovedBy d src' s')
    (hsafe : Safe ctx src' d (.rule id) o) :
    InStep d src' (Entry.MovedBy d src') (ruleEntry ctx call depth ⟨id, o⟩)
      (ruleEntry (ctx.on src') call' depth ⟨id, o'⟩) s s' := by
  intro e s₁ hrun
  obtain ⟨-, -, hderived⟩ := (ruleEntry_ends depth htracks hid ho hs).of_run hrun
  -- what the run has examined, from the derivation of its result
  obtain ⟨rule, out, tr, hrule, hd⟩ : ∃ rule out tr, ctx.grammar.rules[id]? = some rule
      ∧ Derives ctx (.expr rule.pattern) (skipped ctx o).1 out tr := by
    cases hderived with
    | rule hrule hd _ _ => exact ⟨_, _, _, hrule, hd⟩
  have hagreed := hsafe.inside ho hrule hd
  have hsize := (skipped_linked ho).stop_le
  refine InStep.bind (fun r r' => r = rule ∧ rule = r') ?_ e s₁ hrun
  intro _ _ _ _ hfirst _
  have hruleOf : ∀ s, ruleOf ctx id s = .ok rule s := fun s => by simp only [ruleOf, hrule]; rfl
  cases hfirst.symm.trans (hruleOf s)
  refine ⟨.of_eq (hruleOf s) (hruleOf s') ⟨rfl, rfl⟩ hmoved, ?_⟩
  rintro _ s₁' ⟨-, rfl⟩ hs₁
  refine .bind (Frame.MovedBy d) fun outer s₂ _ _ henter _ => ?_
  cases henter
  refine ⟨.of_eq rfl rfl hs₁.frame ⟨hs₁.memo, .nil, .nil⟩, fun outer' s₂' houter hs₂ => ?_⟩
  refine .bind (fun start start' => start = (skipped ctx o).1 ∧ PlaceMovedBy d src' start start')
    fun start s₃ _ _ hskip _ => ?_
  rw [skip_apply ho] at hskip
  cases hskip
  refine ⟨(skip_inStep hfits ho hp hagreed.left hs₂).mono_eq (skip_apply ho _), ?_⟩
  rintro start' s₃' ⟨-, hstart⟩ hs₃
  refine .bind (fun _ _ => True) fun _ s₄ _ _ hattempt _ => ?_
  obtain ⟨s₅, hattempt', hmemo, -⟩ := Eval.attempt_apply rule.name (skipped ctx o).1
    { s with frame := ({} : Frame).after ((skipped ctx o).2.map .saw) }
  cases hattempt.symm.trans hattempt'
  refine ⟨attempt_inStep rule.name _ start' hs₃, fun _ s₄' _ hs₄ => ?_⟩
  refine .bind (Outcome.MovedBy d src') fun out₁ s₅ _ _ hpattern _ => ?_
  refine ⟨matchExpr_lockstep hfits htracks hcall depth rule.pattern hsize hstart s₄ s₄'
    (by rw [hmemo]; exact hs) hs₄ (.intro hd hagreed.right), fun out' s₅' hout hs₅ => ?_⟩
  refine .bind (Frame.MovedBy d) fun frame s₆ _ _ hleave _ => ?_
  cases hleave
  refine ⟨.of_eq rfl rfl hs₅.frame ⟨hs₅.memo, houter⟩, fun frame' s₆' hframe hs₆ => ?_⟩
  have hresult := ruleResult_moved ctx depth id rule hp.1 hstart.1 hout hframe
  cases hout with
  | fail => exact .pure hresult hs₆
  | ok hstop hy =>
    simp only [ruleResult] at hresult ⊢
    split
    · next hfragment =>
      rw [if_pos hfragment, if_pos hfragment] at hresult
      exact .pure hresult hs₆
    · next hfragment =>
      rw [if_neg hfragment, if_neg hfragment] at hresult
      exact .pure hresult hs₆

/-- **Two matches of a rule stay in step**, whatever corresponding things they remember, if the texts
agree on what the first one examines. -/
theorem invoke_lockstep (hfits : ctx.Fits) (budget depth : Nat) :
    (invoke ctx budget depth).Lockstep ctx src' d (invoke (ctx.on src') budget depth) := by
  induction budget generalizing depth with
  | zero =>
    intro id o o' hid ho hp
    rw [invoke, invoke]
    refine remember_lockstep hp.1 fun s s' hs hmoved _ e s₁ hrun => ?_
    -- a match that goes too deep has no result
    obtain ⟨rule, s₂, -, hthrow⟩ := InStep.bind_eq_ok hrun
    cases hthrow
  | succ budget ih =>
    intro id o o' hid ho hp
    rw [invoke, invoke]
    exact remember_lockstep hp.1 fun s s' hs hmoved hsafe =>
      ruleEntry_inStep hfits (invoke_tracks ctx budget (depth + 1)) (ih (depth + 1)) (depth + 1) hid ho
        hp hs hmoved hsafe

end Parse

end Packrat
