import Packrat.Proofs.Parse.Derivation

/-!
The matcher follows the derivations.

The matcher remembers outcomes and takes them over again, at most `maxDepth` rules deep and with a
bound on the rounds of every repetition.  None of this shows: as long as everything that is remembered
has a derivation (`Sound`), a match that comes to an end has one, its frame has seen the trace of the
derivation, and what is remembered afterwards has derivations again (`Tracks`).  The only way for a
match not to come to an end is to go too deep.

Main statement: `invoke_tracks`.
-/

namespace Packrat

namespace Parse

/-! ### Steps of the evaluation -/

namespace State

/-- The state after something was tried. -/
def attempted (s : State) (name : Bytes) (o : Nat) : State :=
  if s.furthest < o || s.attempt.isEmpty then { s with furthest := o, attempt := name } else s

variable (s : State) (name : Bytes) (o : Nat)

theorem attempted_memo : (s.attempted name o).memo = s.memo := by
  unfold attempted
  split <;> rfl

theorem attempted_frame : (s.attempted name o).frame = s.frame := by
  unfold attempted
  split <;> rfl

end State

namespace Eval

variable {α β : Type}

theorem bind_apply (m : Eval α) (f : α → Eval β) (s : State) :
    (m >>= f) s = match m s with
      | .ok a s' => f a s'
      | .error e s' => .error e s' := by
  show EStateM.bind m f s = _
  unfold EStateM.bind
  cases m s <;> rfl

theorem get_apply (s : State) : (get : Eval State) s = .ok s s := rfl

/-- Trying something changes nothing but what was tried furthest. -/
theorem attempt_eq (name : Bytes) (o : Nat) (s : State) :
    attempt name o s = .ok () (s.attempted name o) := rfl

theorem attempt_apply (name : Bytes) (o : Nat) (s : State) :
    ∃ s', attempt name o s = .ok () s' ∧ s'.memo = s.memo ∧ s'.frame = s.frame :=
  ⟨_, rfl, s.attempted_memo name o, s.attempted_frame name o⟩

end Eval

theorem skip_apply {ctx : Context} {o : Nat} (ho : o ≤ ctx.source.size) (s : State) :
    skip ctx o s = .ok (skipped ctx o).1
      { s with frame := s.frame.after ((skipped ctx o).2.map .saw) } := by
  unfold skip skipped
  split
  · rw [Eval.bind_apply, Eval.get_apply]
    simp only [Scan.ignored_eq ho, Frame.after_saw]
    rfl
  · rfl

theorem nodeEntry_apply {reads : Footprint} {l : Look} {found : Nat → Footprint → Outcome}
    (h : l.reach ≠ .beyond) (s : State) :
    nodeEntry reads l found s = .ok (nodeResult reads l found) s := by
  unfold nodeEntry nodeResult
  cases hreach : l.reach with
  | upTo stop => rfl
  | nothing => rfl
  | beyond => exact absurd hreach h

/-- Matching a token gives what comes out of it, and notes the attempt; the log may have grown. -/
theorem tokenEntry_eq {ctx : Context} (depth : Nat) (kind : TokenKind) {key : Key}
    (ho : key.offset ≤ ctx.source.size) (s : State) :
    ∃ log, tokenEntry ctx depth kind key s = .ok (tokenResult ctx depth kind key)
      { s.attempted kind.name (skipped ctx key.offset).1 with log } := by
  have hsize := (skipped_linked ho).stop_le
  have hreads : (Frame.after {} ((skipped ctx key.offset).2.map .saw)).reads
      = (skipped ctx key.offset).2.foldl Footprint.note .empty := by
    rw [Frame.after_saw]
  unfold tokenEntry
  simp only [Eval.bind_apply]
  rw [show Eval.enter s = .ok s.frame { s with frame := {} } from rfl]
  dsimp only
  rw [skip_apply ho]
  dsimp only
  rw [show ∀ f : Frame, Eval.leave s.frame { s with frame := f } = .ok f s from fun _ => rfl]
  dsimp only
  rw [Eval.attempt_eq, hreads]
  dsimp only
  generalize s.attempted kind.name (skipped ctx key.offset).1 = s₁
  cases kind with
  | number => exact ⟨s₁.log, nodeEntry_apply (Scan.number_inside hsize).ne_beyond s₁⟩
  | string => exact ⟨s₁.log, nodeEntry_apply (Scan.quoted_inside hsize).ne_beyond s₁⟩
  | ident => exact ⟨s₁.log, nodeEntry_apply (Scan.identifier_inside hsize).ne_beyond s₁⟩
  | newline => exact ⟨s₁.log, rfl⟩
  | endOfInput => exact ⟨s₁.log, rfl⟩
  | indent => exact ⟨_, rfl⟩
  | dedent => exact ⟨_, rfl⟩

theorem tokenEntry_apply {ctx : Context} (depth : Nat) (kind : TokenKind) {key : Key}
    (ho : key.offset ≤ ctx.source.size) (s : State) :
    ∃ s', tokenEntry ctx depth kind key s = .ok (tokenResult ctx depth kind key) s'
      ∧ s'.memo = s.memo ∧ s'.frame = s.frame := by
  obtain ⟨log, hentry⟩ := tokenEntry_eq depth kind ho s
  exact ⟨_, hentry, s.attempted_memo _ _, s.attempted_frame _ _⟩

/-! ### Sound memories -/

/-- The number under which the outcomes of a goal are remembered. -/
def Goal.symbol? (ctx : Context) : Goal → Option Nat
  | .rule id => if id < ctx.grammar.rules.size then some id else none
  | .token kind => some (tokenSymbol ctx kind)
  | _ => none

theorem index_inj {k k' : TokenKind} (h : k.index = k'.index) : k = k' := by
  cases k <;> cases k' <;> first | rfl | cases h

/-- Different goals are remembered under different numbers. -/
theorem Goal.symbol?_inj {ctx : Context} {g g' : Goal} {symbol : Nat}
    (h : g.symbol? ctx = some symbol) (h' : g'.symbol? ctx = some symbol) : g = g' := by
  cases g with
  | rule id =>
    simp only [Goal.symbol?, Option.ite_none_right_eq_some, Option.some.injEq] at h
    cases g' with
    | rule id' =>
      simp only [Goal.symbol?, Option.ite_none_right_eq_some, Option.some.injEq] at h'
      rw [h.2, h'.2]
    | token kind =>
      -- tokens are numbered behind the rules
      simp only [Goal.symbol?, tokenSymbol, Option.some.injEq] at h'
      omega
    | _ => cases h'
  | token kind =>
    simp only [Goal.symbol?, tokenSymbol, Option.some.injEq] at h
    cases g' with
    | rule id' =>
      simp only [Goal.symbol?, Option.ite_none_right_eq_some, Option.some.injEq] at h'
      omega
    | token kind' =>
      simp only [Goal.symbol?, tokenSymbol, Option.some.injEq] at h'
      rw [@index_inj kind kind' (by omega)]
    | _ => cases h'
  | _ => cases h

/-- What is taken over under a number at an offset has a derivation. -/
def Entry.Derived (ctx : Context) (g : Goal) (o : Nat) (e : Entry) : Prop :=
  Derives ctx g o e.outcome.flat [.took e.flat]

/-- Everything that is remembered has a derivation. -/
def Sound (ctx : Context) (memo : Std.HashMap Key Entry) : Prop :=
  ∀ g o symbol e, g.symbol? ctx = some symbol → o ≤ ctx.source.size →
    memo[(⟨symbol, o⟩ : Key)]? = some e → e.Derived ctx g o

theorem sound_empty (ctx : Context) : Sound ctx {} := by
  intro g o symbol e _ _ h
  simp at h

theorem Sound.insert {ctx : Context} {memo : Std.HashMap Key Entry} (h : Sound ctx memo) {g : Goal}
    {o symbol : Nat} {e : Entry} (hsymbol : g.symbol? ctx = some symbol) (he : e.Derived ctx g o) :
    Sound ctx (memo.insert ⟨symbol, o⟩ e) := by
  intro g' o' symbol' e' hsymbol' ho' hmem
  rw [Std.HashMap.getElem?_insert] at hmem
  split at hmem
  · next heq =>
    cases eq_of_beq heq
    cases hmem
    rwa [Goal.symbol?_inj hsymbol' hsymbol]
  · exact h g' o' symbol' e' hsymbol' ho' hmem

/-- An evaluation whose ends are described: what it gives and leaves behind, unless it goes too
deep. -/
def Ends {α : Type} (m : Eval α) (s : State) (post : α → State → Prop) : Prop :=
  match m s with
  | .ok a s' => post a s'
  | .error e _ => ∃ rule depth, e = .exhausted rule depth

theorem Ends.bind {α β : Type} {m : Eval α} {f : α → Eval β} {s : State}
    {post : β → State → Prop} (mid : α → State → Prop) (h : Ends m s mid)
    (hf : ∀ a s', mid a s' → Ends (f a) s' post) : Ends (m >>= f) s post := by
  unfold Ends at h ⊢
  rw [Eval.bind_apply]
  cases hm : m s with
  | ok a s' =>
    rw [hm] at h
    exact hf a s' h
  | error e s' =>
    rw [hm] at h
    exact h

theorem Ends.mono {α : Type} {m : Eval α} {s : State} {post post' : α → State → Prop}
    (h : Ends m s post) (himp : ∀ a s', post a s' → post' a s') : Ends m s post' := by
  unfold Ends at h ⊢
  cases hm : m s with
  | ok a s' =>
    rw [hm] at h
    exact himp a s' h
  | error e s' =>
    rw [hm] at h
    exact h

theorem Ends.of_eq {α : Type} {m : Eval α} {s s' : State} {a : α} {post : α → State → Prop}
    (h : m s = .ok a s') (hpost : post a s') : Ends m s post := by
  unfold Ends
  rw [h]
  exact hpost

/-- What holds at the end holds if there is one. -/
theorem Ends.of_run {α : Type} {m : Eval α} {s s' : State} {a : α} {post : α → State → Prop}
    (h : Ends m s post) (hrun : m s = .ok a s') : post a s' := by
  unfold Ends at h
  rwa [hrun] at h

/-- The matcher has followed a derivation: the outcome is that of the derivation, and the frame has
seen its trace. -/
def Followed (ctx : Context) (g : Goal) (o : Nat) (s : State) (out : Outcome) (s' : State) : Prop :=
  Sound ctx s'.memo
    ∧ ∃ tr, Derives ctx g o out.flat tr ∧ s'.frame.flat = s.frame.flat.after tr

/-- A match that starts with a sound memory follows a derivation. -/
def Tracks (ctx : Context) (g : Goal) (o : Nat) (m : Eval Outcome) : Prop :=
  ∀ s, Sound ctx s.memo → Ends m s (Followed ctx g o s)

/-- Remembering an outcome that is derived follows the derivation, be it computed now or not. -/
theorem remember_tracks {ctx : Context} {g : Goal} {o symbol : Nat} {compute : Eval Entry}
    (ho : o ≤ ctx.source.size) (hsymbol : g.symbol? ctx = some symbol)
    (hcompute : ∀ s, Sound ctx s.memo → Ends compute s fun e s' =>
      Sound ctx s'.memo ∧ s'.frame = s.frame ∧ e.Derived ctx g o) :
    Tracks ctx g o (Eval.remember ⟨symbol, o⟩ compute) := by
  intro s hs
  unfold Eval.remember
  refine Ends.bind (fun s₁ s₂ => s = s₁ ∧ s = s₂) (.of_eq rfl ⟨rfl, rfl⟩) ?_
  rintro _ _ ⟨rfl, rfl⟩
  split
  · next e hmem =>
    have he := hs g o symbol e hsymbol ho hmem
    exact .of_eq rfl ⟨hs, _, he, Frame.flat_consume s.frame e⟩
  · refine Ends.bind _ (hcompute s hs) ?_
    rintro e s' ⟨hs', hframe, he⟩
    refine .of_eq rfl ⟨hs'.insert hsymbol he, _, he, ?_⟩
    show (s'.frame.consume e).flat = _
    rw [Frame.flat_consume, hframe]
    rfl

/-! ### Tokens and names -/

theorem Entry.flat_outcome (e : Entry) : e.flat.outcome = e.outcome.flat := rfl

theorem nodeResult_flat {reads : Footprint} {l : Look} {found found' : Nat → Footprint → Outcome}
    (h : ∀ stop reads, (found' stop reads).flat = (found stop reads).flat) :
    (nodeResult reads l found').flat = (nodeResult reads l found).flat := by
  unfold nodeResult
  cases l.reach with
  | upTo stop => simp only [Entry.flat, h]
  | nothing => rfl
  | beyond => rfl

/-- The depth of a token matters for its depth only. -/
theorem tokenResult_flat (ctx : Context) (d d' : Nat) (kind : TokenKind) (key : Key) :
    (tokenResult ctx d' kind key).flat = (tokenResult ctx d kind key).flat := by
  cases kind with
  | number => exact nodeResult_flat fun stop reads => rfl
  | string => exact nodeResult_flat fun stop reads => rfl
  | ident => exact nodeResult_flat fun stop reads => rfl
  | _ => rfl

theorem matchToken_tracks {ctx : Context} {depth : Nat} {kind : TokenKind} {o : Nat}
    (ho : o ≤ ctx.source.size) : Tracks ctx (.token kind) o (matchToken ctx depth kind o) := by
  refine remember_tracks ho rfl fun s hs => ?_
  obtain ⟨s', hentry, hmemo, hframe⟩ :=
    tokenEntry_apply depth kind (show (⟨tokenSymbol ctx kind, o⟩ : Key).offset ≤ _ from ho) s
  refine .of_eq hentry ⟨hmemo ▸ hs, hframe, ?_⟩
  exact .token (tokenResult_flat ctx 0 depth kind _) rfl

/-- A way to match rules that follows derivations. -/
def Invoke.Tracks (ctx : Context) (call : Invoke) : Prop :=
  ∀ id o, id < ctx.grammar.rules.size → o ≤ ctx.source.size →
    Parse.Tracks ctx (.rule id) o (call id o)

theorem find?_lt_size {ctx : Context} {name : Bytes} {id : Nat}
    (h : ctx.grammar.find? name = some id) : id < ctx.grammar.rules.size := by
  unfold Grammar.find? at h
  rw [Array.findIdx?_eq_some_iff_getElem] at h
  exact h.1

theorem Tracks.of_derives {ctx : Context} {g g' : Goal} {o : Nat} {m : Eval Outcome}
    (h : Tracks ctx g o m)
    (himp : ∀ out tr, Derives ctx g o out tr → Derives ctx g' o out tr) : Tracks ctx g' o m := by
  intro s hs
  refine (h s hs).mono ?_
  rintro out s' ⟨hs', tr, hd, hframe⟩
  exact ⟨hs', tr, himp _ _ hd, hframe⟩

theorem attempt_fail_tracks {ctx : Context} {g : Goal} {o : Nat} {name : Bytes}
    (h : Derives ctx g o .fail []) :
    Tracks ctx g o (do Eval.attempt name o; return .fail) := by
  intro s hs
  obtain ⟨s', hattempt, hmemo, hframe⟩ := Eval.attempt_apply name o s
  refine Ends.bind (fun _ s₁ => s₁ = s') (.of_eq hattempt rfl) ?_
  rintro _ _ rfl
  exact .of_eq rfl ⟨hmemo ▸ hs, [], h, by rw [hframe]; rfl⟩

theorem matchName_tracks {ctx : Context} {call : Invoke} (hcall : call.Tracks ctx) {depth : Nat}
    {name : Bytes} {o : Nat} (ho : o ≤ ctx.source.size) :
    Tracks ctx (.name name) o (matchName ctx call depth name o) := by
  unfold matchName
  cases hfind : ctx.grammar.find? name with
  | some id => exact (hcall id o (find?_lt_size hfind) ho).of_derives fun _ _ => .name_rule hfind
  | none =>
    dsimp only
    cases hkind : TokenKind.ofName? name with
    | some kind =>
      dsimp only
      split
      · next hres =>
        refine attempt_fail_tracks (.name_fail hfind fun kind' hkind' => ?_)
        cases hkind.symm.trans hkind'
        exact hres
      · next hres =>
        exact (matchToken_tracks ho).of_derives fun _ _ =>
          .name_token hfind hkind (by simpa using hres)
    | none =>
      exact attempt_fail_tracks (.name_fail hfind fun kind hkind' => by cases hkind.symm.trans hkind')

/-! ### Atoms -/

theorem scan_apply {l : Look} {found : Nat → Outcome} (h : l.reach ≠ .beyond) (s : State) :
    Eval.scan l found s = .ok (scanned l found) { s with frame := s.frame.step (.saw l) } := by
  unfold Eval.scan scanned
  cases hreach : l.reach with
  | upTo stop => rfl
  | nothing => rfl
  | beyond => exact absurd hreach h

theorem scan_ends {l : Look} {found : Nat → Outcome} (h : l.reach ≠ .beyond) (s : State) :
    Ends (Eval.scan l found) s fun out s' =>
      s'.memo = s.memo ∧ s'.frame = s.frame.step (.saw l) ∧ out = scanned l found :=
  .of_eq (scan_apply h s) ⟨rfl, rfl, rfl⟩

theorem Frame.flat_after_saw (f : Frame) (looks : List Look) :
    (f.after (looks.map .saw)).flat = f.flat.after (looks.map .saw) := by
  simp only [Frame.after_saw, Frame.flat]

theorem matchByte_ends {ctx : Context} {inside : UInt8 → Bool} {o : Nat}
    (ho : o ≤ ctx.source.size) (s : State) :
    Ends (matchByte ctx inside o) s fun out s' => s'.memo = s.memo
      ∧ s'.frame = s.frame.step (.saw (Scan.byte ctx.source.text inside o))
      ∧ out = scanned (Scan.byte ctx.source.text inside o)
          fun stop => .ok stop (.one (.text (ctx.source.slice o stop) o)) :=
  scan_ends (Scan.byte_inside ho inside).ne_beyond s

theorem scanned_text_flat (l : Look) (bytes : Nat → Bytes) (start : Nat) :
    (scanned l fun stop => .ok stop (.one (.text (bytes stop) start))).flat
      = scanned l fun stop => .ok stop (.one (.text (bytes stop) start)) := by
  unfold scanned
  cases l.reach <;> rfl

theorem matchAtom_tracks {ctx : Context} {call : Invoke} (hcall : call.Tracks ctx) {depth : Nat}
    (label : Option Bytes) (a : Atom) {o : Nat} (ho : o ≤ ctx.source.size) :
    Tracks ctx (.expr (.atom label a)) o (matchAtom ctx call depth a o) := by
  unfold matchAtom
  cases a with
  | literal text =>
    intro s hs
    refine Ends.bind (fun start s₁ => start = (skipped ctx o).1 ∧ s₁ =
      { s with frame := s.frame.after ((skipped ctx o).2.map .saw) })
      (.of_eq (skip_apply ho s) ⟨rfl, rfl⟩) ?_
    rintro _ _ ⟨rfl, rfl⟩
    refine (scan_ends (Scan.literal_inside (skipped_linked ho).stop_le text (isWord text)).ne_beyond
      _).mono ?_
    rintro out s' ⟨hmemo, hframe, rfl⟩
    refine ⟨hmemo ▸ hs, _, .literal rfl (scanned_text_flat _ _ _), ?_⟩
    rw [hframe, Frame.after_append, ← Frame.flat_after_saw]
    rfl
  | charClass c =>
    intro s hs
    refine (matchByte_ends ho s).mono ?_
    rintro out s' ⟨hmemo, hframe, rfl⟩
    exact ⟨hmemo ▸ hs, _, .charClass rfl (scanned_text_flat _ _ _), by rw [hframe]; rfl⟩
  | anyByte =>
    intro s hs
    refine (matchByte_ends ho s).mono ?_
    rintro out s' ⟨hmemo, hframe, rfl⟩
    exact ⟨hmemo ▸ hs, _, .anyByte rfl (scanned_text_flat _ _ _), by rw [hframe]; rfl⟩
  | rule name => exact (matchName_tracks hcall ho).of_derives fun _ _ => .ruleAtom
  | token kind => exact (matchToken_tracks ho).of_derives fun _ _ => .tokenAtom

/-! ### Operators -/

/-- Rounds of a repetition: enough of them are allowed, and those that are counted are those that
move on. -/
theorem matchMany_ends {ctx : Context} {e : Expr} {body : Nat → Eval Outcome}
    (hbody : ∀ o, o ≤ ctx.source.size → Tracks ctx (.expr e) o (body o)) {fuel count o : Nat}
    {ps : Array Piece} (ho : o ≤ ctx.source.size) (hfuel : ctx.source.size - o < fuel) {s : State}
    (hs : Sound ctx s.memo) :
    Ends (matchMany body fuel count o ps) s fun r s' => Sound ctx s'.memo ∧
      (r.1 = count ↔ r.2.1 = o) ∧ count ≤ r.1 ∧
      ∃ qs tr, r.2.2.map Piece.flat = ps.map Piece.flat ++ qs ∧
        Derives ctx (.many e) o (.ok r.2.1 (.many qs)) tr ∧
        s'.frame.flat = s.frame.flat.after tr := by
  induction fuel generalizing count o ps s with
  | zero => omega
  | succ fuel ih =>
    rw [matchMany]
    refine Ends.bind _ (hbody o ho s hs) ?_
    rintro out s₁ ⟨hs₁, tr, hd, hframe⟩
    cases out with
    | fail =>
      exact .of_eq rfl ⟨hs₁, by simp, Nat.le_refl _, #[], tr, by simp, .many_fail hd, hframe⟩
    | ok stop y =>
      dsimp only
      have hb := hd.bounds ho rfl
      split
      · next heq =>
        subst heq
        exact .of_eq rfl ⟨hs₁, by simp, Nat.le_refl _, #[], tr, by simp, .many_stay hd, hframe⟩
      · next hne =>
        refine (ih (o := stop) hb.2 (by omega) hs₁).mono ?_
        rintro ⟨count', stop', ps'⟩ s₂ ⟨hs₂, hcount, hle, qs, tr', hqs, hd', hframe'⟩
        have hb' := hd'.bounds hb.2 rfl
        refine ⟨hs₂, ?_, by omega, y.flat.pieces ++ qs, tr ++ tr', ?_, .many_more hd hne hd', ?_⟩
        · constructor <;> intro h <;> simp only at * <;> omega
        · rw [hqs, Array.map_append, Yield.pieces_flat, Array.append_assoc]
        · rw [hframe', hframe, Frame.after_append]

/-- An operator that matches its operand once. -/
theorem Tracks.once {ctx : Context} {g g' : Goal} {o : Nat} {body : Eval Outcome}
    (hbody : Tracks ctx g o body) {none : Outcome} {some : Nat → Yield → Outcome}
    (hfail : ∀ tr, Derives ctx g o .fail tr → Derives ctx g' o none.flat tr)
    (hok : ∀ stop y tr, Derives ctx g o (.ok stop y.flat) tr →
      Derives ctx g' o (some stop y).flat tr) :
    Tracks ctx g' o (do
      match ← body with
      | .fail => return none
      | .ok stop y => return some stop y) := by
  intro s hs
  refine Ends.bind _ (hbody s hs) ?_
  rintro out s₁ ⟨hs₁, tr, hd, hframe⟩
  cases out with
  | fail => exact .of_eq rfl ⟨hs₁, tr, hfail tr hd, hframe⟩
  | ok stop y => exact .of_eq rfl ⟨hs₁, tr, hok stop y tr hd, hframe⟩

theorem matchOperator_tracks {ctx : Context} {e : Expr} {body : Nat → Eval Outcome}
    (hbody : ∀ o, o ≤ ctx.source.size → Tracks ctx (.expr e) o (body o)) (label : Option Bytes)
    (op : Operator) {o : Nat} (ho : o ≤ ctx.source.size) :
    Tracks ctx (.expr (.apply label op e)) o (matchOperator ctx op body o) := by
  unfold matchOperator
  have hempty : (Outcome.ok o .empty).flat = .ok o .empty := by
    simp [Outcome.flat, Yield.flat, Yield.empty]
  cases op with
  | star =>
    intro s hs
    refine Ends.bind _ (matchMany_ends hbody ho (by omega) hs) ?_
    rintro ⟨count, stop, ps⟩ s₁ ⟨hs₁, -, -, qs, tr, hqs, hd, hframe⟩
    refine .of_eq rfl ⟨hs₁, tr, .star ?_, hframe⟩
    have hps : ps.map Piece.flat = qs := by simpa using hqs
    rw [if_neg (Nat.not_lt_zero count)]
    simp only [Outcome.flat, Yield.flat, hps]
    exact hd
  | plus =>
    intro s hs
    refine Ends.bind _ (matchMany_ends hbody ho (by omega) hs) ?_
    rintro ⟨count, stop, ps⟩ s₁ ⟨hs₁, hcount, -, qs, tr, hqs, hd, hframe⟩
    refine .of_eq rfl ⟨hs₁, tr, ?_, hframe⟩
    have hps : ps.map Piece.flat = qs := by simpa using hqs
    simp only at hcount hd
    by_cases hzero : count < 1
    · rw [if_pos hzero]
      obtain rfl : stop = o := hcount.1 (by omega)
      exact .plus_fail hd
    · rw [if_neg hzero]
      simp only [Outcome.flat, Yield.flat, hps]
      exact .plus hd fun heq => hzero (by rw [hcount.2 heq]; omega)
  | option => exact (hbody o ho).once (fun _ h => hempty.symm ▸ .option_fail h) fun _ _ _ => .option
  | ahead => exact (hbody o ho).once (fun _ => .ahead_fail) fun _ _ _ h => hempty.symm ▸ .ahead h
  | notAhead =>
    exact (hbody o ho).once (fun _ h => hempty.symm ▸ .notAhead_fail h) fun _ _ _ => .notAhead

/-! ### Expressions -/

mutual

theorem matchExpr_tracks {ctx : Context} {call : Invoke} (hcall : call.Tracks ctx) (depth : Nat) :
    ∀ (e : Expr) {o : Nat}, o ≤ ctx.source.size →
      Tracks ctx (.expr e) o (matchExpr ctx call depth e o)
  | .atom label a, o, ho => by
    rw [matchExpr]
    exact matchAtom_tracks hcall label a ho
  | .apply label op e, o, ho => by
    rw [matchExpr]
    exact matchOperator_tracks (fun _ ho => matchExpr_tracks hcall depth e ho) label op ho
  | .seq label es, o, ho => by
    rw [matchExpr]
    intro s hs
    refine (matchSeq_ends hcall depth es ho #[] hs).mono ?_
    rintro out s' ⟨hs', tr, hframe, hd | ⟨stop, qs, hout, hd⟩⟩
    · exact ⟨hs', tr, .seq (by rw [hd.1]; exact hd.2), hframe⟩
    · refine ⟨hs', tr, .seq ?_, hframe⟩
      rw [hout]
      simpa using hd
  | .choice label es, o, ho => by
    rw [matchExpr]
    exact (matchChoice_tracks hcall depth es ho).of_derives fun _ _ => .choice

theorem matchSeq_ends {ctx : Context} {call : Invoke} (hcall : call.Tracks ctx) (depth : Nat) :
    ∀ (es : List Expr) {o : Nat}, o ≤ ctx.source.size → ∀ (ps : Array Piece) {s : State},
      Sound ctx s.memo → Ends (matchSeq ctx call depth es o ps) s fun out s' =>
        Sound ctx s'.memo ∧ ∃ tr, s'.frame.flat = s.frame.flat.after tr ∧
          ((out.flat = .fail ∧ Derives ctx (.seq es) o .fail tr) ∨
            ∃ stop qs, out.flat = .ok stop (.many (ps.map Piece.flat ++ qs)) ∧
              Derives ctx (.seq es) o (.ok stop (.many qs)) tr)
  | [], o, ho, ps, s, hs => by
    rw [matchSeq]
    exact .of_eq rfl ⟨hs, [], rfl, .inr ⟨o, #[], by simp [Outcome.flat, Yield.flat], .seq_nil⟩⟩
  | e :: es, o, ho, ps, s, hs => by
    rw [matchSeq]
    refine Ends.bind _ (matchExpr_tracks hcall depth e ho s hs) ?_
    rintro out s₁ ⟨hs₁, tr, hd, hframe⟩
    cases out with
    | fail => exact .of_eq rfl ⟨hs₁, tr, hframe, .inl ⟨rfl, .seq_fail hd⟩⟩
    | ok m y =>
      dsimp only
      have hb := hd.bounds ho rfl
      refine (matchSeq_ends hcall depth es hb.2 (ps ++ y.pieces) hs₁).mono ?_
      rintro out s₂ ⟨hs₂, tr', hframe', hd' | ⟨stop, qs, hout, hd'⟩⟩
      · refine ⟨hs₂, tr ++ tr', ?_, .inl ⟨hd'.1, .seq_stop hd hd'.2⟩⟩
        rw [hframe', hframe, Frame.after_append]
      · refine ⟨hs₂, tr ++ tr', ?_, .inr ⟨stop, y.flat.pieces ++ qs, ?_, .seq_cons hd hd'⟩⟩
        · rw [hframe', hframe, Frame.after_append]
        · rw [hout, Array.map_append, Yield.pieces_flat, Array.append_assoc]

theorem matchChoice_tracks {ctx : Context} {call : Invoke} (hcall : call.Tracks ctx) (depth : Nat) :
    ∀ (es : List Expr) {o : Nat}, o ≤ ctx.source.size →
      Tracks ctx (.choice es) o (matchChoice ctx call depth es o)
  | [], o, ho => by
    rw [matchChoice]
    exact fun s hs => .of_eq rfl ⟨hs, [], .choice_nil, rfl⟩
  | e :: es, o, ho => by
    rw [matchChoice]
    intro s hs
    refine Ends.bind _ (matchExpr_tracks hcall depth e ho s hs) ?_
    rintro out s₁ ⟨hs₁, tr, hd, hframe⟩
    cases out with
    | fail =>
      refine (matchChoice_tracks hcall depth es ho s₁ hs₁).mono ?_
      rintro out s₂ ⟨hs₂, tr', hd', hframe'⟩
      exact ⟨hs₂, tr ++ tr', .choice_next hd hd', by rw [hframe', hframe, Frame.after_append]⟩
    | ok stop y => exact .of_eq rfl ⟨hs₁, tr, .choice_first hd, hframe⟩

end

/-! ### Rules -/

/-- The depth of a rule, and depths inside of it, matter for depths only. -/
theorem ruleResult_flat (ctx : Context) (d : Nat) (rule : Rule) (key : Key) (start : Nat)
    (out : Outcome) (frame : Frame) :
    (ruleResult ctx d rule key start out frame).flat
      = (ruleResult ctx 0 rule key start out.flat frame.flat).flat := by
  cases out with
  | fail => simp only [ruleResult, Outcome.flat, Entry.flat, Frame.total_flat]
  | ok stop y =>
    simp only [ruleResult, Outcome.flat, Frame.settle_flat]
    split
    · simp only [Entry.flat, Outcome.flat, Yield.flat_flat]
    · refine congrArg (fun t => Entry.mk (.ok stop (.one (.node key t))) .empty) ?_
      refine (Yield.wrap_flat ctx y ?_).symm
      rfl

/-- Matching a rule gives what comes out of it. -/
theorem ruleEntry_ends {ctx : Context} {call : Invoke} (depth : Nat) (hcall : call.Tracks ctx)
    {id o : Nat} (hid : id < ctx.grammar.rules.size) (ho : o ≤ ctx.source.size) {s : State}
    (hs : Sound ctx s.memo) :
    Ends (ruleEntry ctx call depth ⟨id, o⟩) s fun e s' =>
      Sound ctx s'.memo ∧ s'.frame = s.frame ∧ e.Derived ctx (.rule id) o := by
  have hrule : ctx.grammar.rules[id]? = some ctx.grammar.rules[id] := Array.getElem?_eq_getElem hid
  have hlinked := skipped_linked ho
  unfold ruleEntry
  refine Ends.bind (fun rule s₁ => rule = ctx.grammar.rules[id] ∧ s = s₁) ?_ ?_
  · simp only [ruleOf, hrule]
    exact .of_eq rfl ⟨rfl, rfl⟩
  rintro _ _ ⟨rfl, rfl⟩
  refine Ends.bind (fun outer s₁ => outer = s.frame ∧ s₁ = { s with frame := {} })
    (.of_eq rfl ⟨rfl, rfl⟩) ?_
  rintro _ _ ⟨rfl, rfl⟩
  refine Ends.bind (fun start s₁ => start = (skipped ctx o).1 ∧ s₁ =
    { s with frame := Frame.after {} ((skipped ctx o).2.map .saw) })
    (.of_eq (skip_apply ho _) ⟨rfl, rfl⟩) ?_
  rintro _ _ ⟨rfl, rfl⟩
  refine Ends.bind (fun _ s₁ => Sound ctx s₁.memo ∧ s₁.frame =
    Frame.after {} ((skipped ctx o).2.map .saw)) ?_ ?_
  · obtain ⟨s₁, hattempt, hmemo, hframe⟩ := Eval.attempt_apply ctx.grammar.rules[id].name
      (skipped ctx o).1 { s with frame := Frame.after {} ((skipped ctx o).2.map .saw) }
    exact .of_eq hattempt ⟨hmemo ▸ hs, hframe⟩
  rintro _ s₁ ⟨hs₁, hframe₁⟩
  refine Ends.bind _ (matchExpr_tracks hcall depth _ hlinked.stop_le s₁ hs₁) ?_
  rintro out s₂ ⟨hs₂, tr, hd, hframe₂⟩
  have hframe : s₂.frame.flat = Frame.after {} ((skipped ctx o).2.map .saw ++ tr) := by
    rw [hframe₂, hframe₁, Frame.flat_after_saw, Frame.after_append, Frame.flat_empty]
  have hderived : (ruleResult ctx depth ctx.grammar.rules[id] ⟨id, o⟩ (skipped ctx o).1 out
      s₂.frame).Derived ctx (.rule id) o := by
    refine .rule hrule hd ?_ rfl
    rw [← hframe, ruleResult_flat]
  refine Ends.bind (fun frame s₃ => frame = s₂.frame ∧ s₃ = { s₂ with frame := s.frame })
    (.of_eq rfl ⟨rfl, rfl⟩) ?_
  rintro _ _ ⟨rfl, rfl⟩
  unfold ruleResult at hderived
  cases out with
  | fail => exact .of_eq rfl ⟨hs₂, rfl, hderived⟩
  | ok stop y =>
    dsimp only at hderived ⊢
    split
    · next hfragment =>
      rw [if_pos hfragment] at hderived
      exact .of_eq rfl ⟨hs₂, rfl, hderived⟩
    · next hfragment =>
      rw [if_neg hfragment] at hderived
      exact .of_eq rfl ⟨hs₂, rfl, hderived⟩

/-- A rule is matched as it is derived, whatever is remembered and however deep it may go. -/
theorem invoke_tracks (ctx : Context) (budget depth : Nat) :
    (invoke ctx budget depth).Tracks ctx := by
  induction budget generalizing depth with
  | zero =>
    intro id o hid ho
    rw [invoke]
    refine remember_tracks ho (by simp [Goal.symbol?, hid]) fun s _ => ?_
    refine Ends.bind (fun _ _ => True) ?_ fun rule s' _ => ⟨_, _, rfl⟩
    simp only [ruleOf, Array.getElem?_eq_getElem hid]
    exact trivial
  | succ budget ih =>
    intro id o hid ho
    rw [invoke]
    exact remember_tracks ho (by simp [Goal.symbol?, hid]) fun s hs => ruleEntry_ends _ (ih _) hid ho hs

end Parse

end Packrat
