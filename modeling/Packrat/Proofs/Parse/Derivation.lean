import Packrat.Parse.Parser
import Packrat.Proofs.Parse.Flat
import Packrat.Proofs.Scan.Ignored

/-!
Derivations: what an expression matches, said without a memory.

A derivation follows the expression from an offset on.  It ends in an outcome and leaves a trace: the
looks that were taken, and the outcomes of rules and tokens that were taken over, in order.  The trace
of a rule is collected in a frame of its own, and what comes out of the rule is made from the outcome
of its pattern and from that frame (`ruleResult`).  There is no memory, no bound on the nesting and no
count of the rounds of a repetition; an expression that runs into itself has no derivation.

An offset and a goal have one derivation at most (`Derives.unique`), and a derivation that starts in
the text ends in it, not in front of its start (`Derives.bounds`).
-/

namespace Packrat

namespace Parse

/-! ### Traces -/

/-- What leaves a trace in the frame of a rule. -/
inductive Event where
  /-- A look was taken. -/
  | saw (l : Look)
  /-- The outcome of a rule or token was taken over. -/
  | took (e : Entry)

namespace Frame

/-- The frame after an event. -/
def step (f : Frame) : Event → Frame
  | .saw l => { f with reads := f.reads.note l }
  | .took e => f.consume e

/-- The frame after a trace. -/
def after (f : Frame) (trace : List Event) : Frame := trace.foldl step f

@[simp] theorem after_nil (f : Frame) : f.after [] = f := rfl

@[simp] theorem after_cons (f : Frame) (e : Event) (trace : List Event) :
    f.after (e :: trace) = (f.step e).after trace := rfl

theorem after_append (f : Frame) (trace trace' : List Event) :
    f.after (trace ++ trace') = (f.after trace).after trace' := List.foldl_append ..

theorem after_saw (f : Frame) (looks : List Look) :
    f.after (looks.map .saw) = { f with reads := looks.foldl Footprint.note f.reads } := by
  induction looks generalizing f with
  | nil => rfl
  | cons l looks ih => rw [List.map_cons, after_cons, ih]; rfl

end Frame

/-! ### What comes out of a scan, a token and a rule -/

/-- What a scan that is a match leads to. -/
def scanned (l : Look) (found : Nat → Outcome) : Outcome :=
  match l.reach with
  | .upTo stop => found stop
  | _ => .fail

/-- Where a rule, token or literal that is asked for at an offset begins, and the looks that it took
to find out. -/
def skipped (ctx : Context) (o : Nat) : Nat × List Look :=
  if ctx.grammar.skipsIgnored then Scan.ignoredLooks ctx.source.text ctx.grammar.comments o
  else (o, [])

/-- What comes out of a scan for a token that yields a node. -/
def nodeResult (reads : Footprint) (l : Look) (found : Nat → Footprint → Outcome) : Entry :=
  match l.reach with
  | .upTo stop => { outcome := found stop (reads.note l) }
  | _ => { outcome := .fail, reads := reads.note l }

/-- What comes out of a token. -/
def tokenResult (ctx : Context) (depth : Nat) (kind : TokenKind) (key : Key) : Entry :=
  let start := (skipped ctx key.offset).1
  let reads := (skipped ctx key.offset).2.foldl Footprint.note .empty
  let text := ctx.source.text
  match kind with
  | .number =>
    nodeResult reads (Scan.number text start) fun stop reads =>
      tokenNode ctx key depth start stop (Bytes.ascii "Number")
        (.ofNumber (ctx.source.slice start stop)) reads
  | .string =>
    nodeResult reads (Scan.quoted text start) fun stop reads =>
      tokenNode ctx key depth start stop (Bytes.ascii "String")
        (.text (ctx.source.slice (start + 1) (stop - 1))) reads
  | .ident =>
    nodeResult reads (Scan.identifier text start) fun stop reads =>
      tokenNode ctx key depth start stop (Bytes.ascii "Identifier")
        (.text (ctx.source.slice start stop)) reads
  | .newline =>
    let l := Scan.newline text start
    { outcome := scanned l fun stop => .ok stop .empty, reads := reads.note l }
  | .endOfInput =>
    let stop := text.scanWhile Byte.isBlank start
    { outcome := if text.size ≤ stop then .ok stop .empty else .fail
      reads := reads.note (Scan.blanks text start) }
  | .indent | .dedent => { outcome := .fail, reads }

/-- What comes out of a rule that begins at `start`, if its pattern leads to an outcome and leaves
the frame behind. -/
def ruleResult (ctx : Context) (depth : Nat) (rule : Rule) (key : Key) (start : Nat)
    (outcome : Outcome) (frame : Frame) : Entry :=
  match outcome with
  | .fail => { outcome := .fail, reads := frame.total }
  | .ok stop y =>
    let reads := frame.settle y
    if rule.isFragment then { outcome := .ok stop y, reads }
    else
      let (line, column) := ctx.source.position start
      let tree := y.wrap ctx
        { type := rule.nodeType, line, column, start, stop, invoked := key.offset,
          rule := some key.symbol, depth, reads }
      { outcome := .ok stop (.one (.node key tree)) }

theorem ruleResult_fragment {ctx : Context} {depth : Nat} {rule : Rule} (h : rule.isFragment = true)
    (key : Key) (start stop : Nat) (y : Yield) (frame : Frame) :
    ruleResult ctx depth rule key start (.ok stop y) frame = ⟨.ok stop y, frame.settle y⟩ := by
  simp only [ruleResult, h, if_true]

/-- What the node of a rule says about itself. -/
def ruleInfo (ctx : Context) (depth : Nat) (rule : Rule) (key : Key) (start stop : Nat)
    (reads : Footprint) : NodeInfo :=
  { type := rule.nodeType, line := (ctx.source.position start).1,
    column := (ctx.source.position start).2, start, stop, invoked := key.offset,
    rule := some key.symbol, depth, reads }

theorem ruleResult_node {ctx : Context} {depth : Nat} {rule : Rule} (h : rule.isFragment = false)
    (key : Key) (start stop : Nat) (y : Yield) (frame : Frame) :
    ruleResult ctx depth rule key start (.ok stop y) frame
      = ⟨.ok stop (.one (.node key
          (y.wrap ctx (ruleInfo ctx depth rule key start stop (frame.settle y))))), .empty⟩ := by
  simp only [ruleResult, h, Bool.false_eq_true, if_false]
  rfl

/-! ### Derivations -/

/-- What can be matched at an offset. -/
inductive Goal where
  | expr (e : Expr)
  /-- Expressions one behind the other. -/
  | seq (es : List Expr)
  /-- The first of the expressions that matches. -/
  | choice (es : List Expr)
  /-- An expression as often as it matches and moves on. -/
  | many (e : Expr)
  | name (name : Bytes)
  | rule (id : Nat)
  | token (kind : TokenKind)

/-- A goal, matched from an offset on, leads to an outcome and leaves a trace. -/
inductive Derives (ctx : Context) : Goal → Nat → Outcome → List Event → Prop
  -- atoms
  | literal {label text o out l} :
      l = Scan.literal ctx.source.text text (isWord text) (skipped ctx o).1 →
      out = (scanned l fun stop => .ok stop (.one (.text text (skipped ctx o).1))) →
      Derives ctx (.expr (.atom label (.literal text))) o out ((skipped ctx o).2.map .saw ++ [.saw l])
  | charClass {label c o out l} :
      l = Scan.byte ctx.source.text c.accepts o →
      out = (scanned l fun stop => .ok stop (.one (.text (ctx.source.slice o stop) o))) →
      Derives ctx (.expr (.atom label (.charClass c))) o out [.saw l]
  | anyByte {label o out l} :
      l = Scan.byte ctx.source.text (fun _ => true) o →
      out = (scanned l fun stop => .ok stop (.one (.text (ctx.source.slice o stop) o))) →
      Derives ctx (.expr (.atom label .anyByte)) o out [.saw l]
  | ruleAtom {label name o out tr} :
      Derives ctx (.name name) o out tr → Derives ctx (.expr (.atom label (.rule name))) o out tr
  | tokenAtom {label kind o out tr} :
      Derives ctx (.token kind) o out tr → Derives ctx (.expr (.atom label (.token kind))) o out tr
  -- operators
  | star {label e o out tr} :
      Derives ctx (.many e) o out tr → Derives ctx (.expr (.apply label .star e)) o out tr
  | plus {label e o stop y tr} : Derives ctx (.many e) o (.ok stop y) tr → stop ≠ o →
      Derives ctx (.expr (.apply label .plus e)) o (.ok stop y) tr
  | plus_fail {label e o y tr} : Derives ctx (.many e) o (.ok o y) tr →
      Derives ctx (.expr (.apply label .plus e)) o .fail tr
  | option {label e o stop y tr} : Derives ctx (.expr e) o (.ok stop y) tr →
      Derives ctx (.expr (.apply label .option e)) o (.ok stop y) tr
  | option_fail {label e o tr} : Derives ctx (.expr e) o .fail tr →
      Derives ctx (.expr (.apply label .option e)) o (.ok o .empty) tr
  | ahead {label e o stop y tr} : Derives ctx (.expr e) o (.ok stop y) tr →
      Derives ctx (.expr (.apply label .ahead e)) o (.ok o .empty) tr
  | ahead_fail {label e o tr} : Derives ctx (.expr e) o .fail tr →
      Derives ctx (.expr (.apply label .ahead e)) o .fail tr
  | notAhead {label e o stop y tr} : Derives ctx (.expr e) o (.ok stop y) tr →
      Derives ctx (.expr (.apply label .notAhead e)) o .fail tr
  | notAhead_fail {label e o tr} : Derives ctx (.expr e) o .fail tr →
      Derives ctx (.expr (.apply label .notAhead e)) o (.ok o .empty) tr
  -- repetitions: the match that fails or stays in place ends them and is left out
  | many_fail {e o tr} : Derives ctx (.expr e) o .fail tr →
      Derives ctx (.many e) o (.ok o (.many #[])) tr
  | many_stay {e o y tr} : Derives ctx (.expr e) o (.ok o y) tr →
      Derives ctx (.many e) o (.ok o (.many #[])) tr
  | many_more {e o m y tr stop ps tr'} : Derives ctx (.expr e) o (.ok m y) tr → m ≠ o →
      Derives ctx (.many e) m (.ok stop (.many ps)) tr' →
      Derives ctx (.many e) o (.ok stop (.many (y.pieces ++ ps))) (tr ++ tr')
  -- sequences
  | seq {label es o out tr} :
      Derives ctx (.seq es) o out tr → Derives ctx (.expr (.seq label es)) o out tr
  | seq_nil {o} : Derives ctx (.seq []) o (.ok o (.many #[])) []
  | seq_fail {e es o tr} : Derives ctx (.expr e) o .fail tr → Derives ctx (.seq (e :: es)) o .fail tr
  | seq_stop {e es o m y tr tr'} : Derives ctx (.expr e) o (.ok m y) tr →
      Derives ctx (.seq es) m .fail tr' → Derives ctx (.seq (e :: es)) o .fail (tr ++ tr')
  | seq_cons {e es o m y tr stop ps tr'} : Derives ctx (.expr e) o (.ok m y) tr →
      Derives ctx (.seq es) m (.ok stop (.many ps)) tr' →
      Derives ctx (.seq (e :: es)) o (.ok stop (.many (y.pieces ++ ps))) (tr ++ tr')
  -- ordered choices
  | choice {label es o out tr} :
      Derives ctx (.choice es) o out tr → Derives ctx (.expr (.choice label es)) o out tr
  | choice_nil {o} : Derives ctx (.choice []) o .fail []
  | choice_first {e es o stop y tr} : Derives ctx (.expr e) o (.ok stop y) tr →
      Derives ctx (.choice (e :: es)) o (.ok stop y) tr
  | choice_next {e es o out tr tr'} : Derives ctx (.expr e) o .fail tr →
      Derives ctx (.choice es) o out tr' → Derives ctx (.choice (e :: es)) o out (tr ++ tr')
  -- names
  | name_rule {name id o out tr} : ctx.grammar.find? name = some id →
      Derives ctx (.rule id) o out tr → Derives ctx (.name name) o out tr
  | name_token {name kind o out tr} : ctx.grammar.find? name = none →
      TokenKind.ofName? name = some kind → kind.isReserved = false →
      Derives ctx (.token kind) o out tr → Derives ctx (.name name) o out tr
  | name_fail {name o} : ctx.grammar.find? name = none →
      (∀ kind, TokenKind.ofName? name = some kind → kind.isReserved = true) →
      Derives ctx (.name name) o .fail []
  -- rules and tokens: what comes out of them is taken over
  | rule {id rule o out tr res entry} : ctx.grammar.rules[id]? = some rule →
      Derives ctx (.expr rule.pattern) (skipped ctx o).1 out tr →
      entry = (ruleResult ctx 0 rule ⟨id, o⟩ (skipped ctx o).1 out
        (Frame.after {} ((skipped ctx o).2.map .saw ++ tr))).flat →
      res = entry.outcome →
      Derives ctx (.rule id) o res [.took entry]
  | token {kind o res entry} : entry = (tokenResult ctx 0 kind ⟨tokenSymbol ctx kind, o⟩).flat →
      res = entry.outcome →
      Derives ctx (.token kind) o res [.took entry]

namespace Derives

variable {ctx : Context} {g : Goal} {o : Nat} {out out' : Outcome} {tr tr' : List Event}

/-- A goal has one outcome and one trace at an offset. -/
theorem unique (h : Derives ctx g o out tr) (h' : Derives ctx g o out' tr') :
    out = out' ∧ tr = tr' := by
  induction h generalizing out' tr' with
  | literal hl hout => cases h' with | literal hl' hout' => subst hl hl' hout hout'; exact ⟨rfl, rfl⟩
  | charClass hl hout =>
    cases h' with | charClass hl' hout' => subst hl hl' hout hout'; exact ⟨rfl, rfl⟩
  | anyByte hl hout => cases h' with | anyByte hl' hout' => subst hl hl' hout hout'; exact ⟨rfl, rfl⟩
  | ruleAtom _ ih => cases h' with | ruleAtom h' => exact ih h'
  | tokenAtom _ ih => cases h' with | tokenAtom h' => exact ih h'
  | star _ ih => cases h' with | star h' => exact ih h'
  | plus _ hne ih =>
    cases h' with
    | plus h' _ => exact ih h'
    | plus_fail h' => cases (ih h').1; exact absurd rfl hne
  | plus_fail _ ih =>
    cases h' with
    | plus h' hne => cases (ih h').1; exact absurd rfl hne
    | plus_fail h' => exact ⟨rfl, (ih h').2⟩
  | option _ ih =>
    cases h' with
    | option h' => exact ih h'
    | option_fail h' => cases (ih h').1
  | option_fail _ ih =>
    cases h' with
    | option h' => cases (ih h').1
    | option_fail h' => exact ⟨rfl, (ih h').2⟩
  | ahead _ ih =>
    cases h' with
    | ahead h' => exact ⟨rfl, (ih h').2⟩
    | ahead_fail h' => cases (ih h').1
  | ahead_fail _ ih =>
    cases h' with
    | ahead h' => cases (ih h').1
    | ahead_fail h' => exact ⟨rfl, (ih h').2⟩
  | notAhead _ ih =>
    cases h' with
    | notAhead h' => exact ⟨rfl, (ih h').2⟩
    | notAhead_fail h' => cases (ih h').1
  | notAhead_fail _ ih =>
    cases h' with
    | notAhead h' => cases (ih h').1
    | notAhead_fail h' => exact ⟨rfl, (ih h').2⟩
  | many_fail _ ih =>
    cases h' with
    | many_fail h' => exact ⟨rfl, (ih h').2⟩
    | many_stay h' => cases (ih h').1
    | many_more h' _ _ => cases (ih h').1
  | many_stay _ ih =>
    cases h' with
    | many_fail h' => cases (ih h').1
    | many_stay h' => exact ⟨rfl, (ih h').2⟩
    | many_more h' hne _ => cases (ih h').1; exact absurd rfl hne
  | many_more _ hne _ ih ihs =>
    cases h' with
    | many_fail h' => cases (ih h').1
    | many_stay h' => cases (ih h').1; exact absurd rfl hne
    | many_more h' _ hs' =>
      obtain ⟨hout, rfl⟩ := ih h'
      cases hout
      obtain ⟨hout, rfl⟩ := ihs hs'
      cases hout
      exact ⟨rfl, rfl⟩
  | seq _ ih => cases h' with | seq h' => exact ih h'
  | seq_nil => cases h' with | seq_nil => exact ⟨rfl, rfl⟩
  | seq_fail _ ih =>
    cases h' with
    | seq_fail h' => exact ⟨rfl, (ih h').2⟩
    | seq_stop h' _ => cases (ih h').1
    | seq_cons h' _ => cases (ih h').1
  | seq_stop _ _ ih ihs =>
    cases h' with
    | seq_fail h' => cases (ih h').1
    | seq_stop h' hs' =>
      obtain ⟨hout, rfl⟩ := ih h'
      cases hout
      exact ⟨rfl, by rw [(ihs hs').2]⟩
    | seq_cons h' hs' =>
      cases (ih h').1
      cases (ihs hs').1
  | seq_cons _ _ ih ihs =>
    cases h' with
    | seq_fail h' => cases (ih h').1
    | seq_stop h' hs' =>
      cases (ih h').1
      cases (ihs hs').1
    | seq_cons h' hs' =>
      obtain ⟨hout, rfl⟩ := ih h'
      cases hout
      obtain ⟨hout, rfl⟩ := ihs hs'
      cases hout
      exact ⟨rfl, rfl⟩
  | choice _ ih => cases h' with | choice h' => exact ih h'
  | choice_nil => cases h' with | choice_nil => exact ⟨rfl, rfl⟩
  | choice_first _ ih =>
    cases h' with
    | choice_first h' => exact ih h'
    | choice_next h' _ => cases (ih h').1
  | choice_next _ _ ih ihs =>
    cases h' with
    | choice_first h' => cases (ih h').1
    | choice_next h' hs' =>
      obtain ⟨rfl, rfl⟩ := ihs hs'
      exact ⟨rfl, by rw [(ih h').2]⟩
  | name_rule hfind _ ih =>
    cases h' with
    | name_rule hfind' h' => cases hfind.symm.trans hfind'; exact ih h'
    | name_token hfind' _ _ _ => cases hfind.symm.trans hfind'
    | name_fail hfind' _ => cases hfind.symm.trans hfind'
  | name_token hfind hkind hres _ ih =>
    cases h' with
    | name_rule hfind' _ => cases hfind.symm.trans hfind'
    | name_token _ hkind' _ h' => cases hkind.symm.trans hkind'; exact ih h'
    | name_fail _ hall => cases hres.symm.trans (hall _ hkind)
  | name_fail hfind hall =>
    cases h' with
    | name_rule hfind' _ => cases hfind.symm.trans hfind'
    | name_token _ hkind hres _ => cases hres.symm.trans (hall _ hkind)
    | name_fail _ _ => exact ⟨rfl, rfl⟩
  | rule hrule _ hentry hres ih =>
    cases h' with
    | rule hrule' h' hentry' hres' =>
      cases hrule.symm.trans hrule'
      obtain ⟨rfl, rfl⟩ := ih h'
      subst hentry hentry' hres hres'
      exact ⟨rfl, rfl⟩
  | token hentry hres =>
    cases h' with
    | token hentry' hres' => subst hentry hentry' hres hres'; exact ⟨rfl, rfl⟩

/-- A repetition does not fail. -/
theorem many_eq_ok {e : Expr} (h : Derives ctx (.many e) o out tr) : ∃ stop y, out = .ok stop y := by
  cases h with
  | many_fail _ => exact ⟨_, _, rfl⟩
  | many_stay _ => exact ⟨_, _, rfl⟩
  | many_more _ _ _ => exact ⟨_, _, rfl⟩

end Derives

/-! ### Where a derivation ends -/

section Bounds

variable {ctx : Context} {o stop : Nat} {y : Yield}

theorem skipped_linked (ho : o ≤ ctx.source.size) :
    Scan.Linked ctx.source.text o (skipped ctx o).2 (skipped ctx o).1 := by
  unfold skipped
  split
  · exact Scan.ignoredLooks_linked ho _
  · exact .nil ho

theorem scanned_eq_ok {l : Look} {found : Nat → Outcome} (h : scanned l found = .ok stop y) :
    ∃ m, l.reach = .upTo m ∧ found m = .ok stop y := by
  unfold scanned at h
  split at h
  · exact ⟨_, ‹_›, h⟩
  · cases h

theorem nodeResult_eq_ok {reads : Footprint} {l : Look} {found : Nat → Footprint → Outcome}
    (h : (nodeResult reads l found).outcome = .ok stop y) :
    ∃ m, l.reach = .upTo m ∧ found m (reads.note l) = .ok stop y := by
  unfold nodeResult at h
  split at h
  · exact ⟨_, ‹_›, h⟩
  · cases h

theorem Outcome.flat_eq_ok {out : Outcome} (h : out.flat = .ok stop y) :
    ∃ y', out = .ok stop y' ∧ y'.flat = y := by
  cases out with
  | fail => cases h
  | ok stop' y' =>
    simp only [Outcome.flat, Outcome.ok.injEq] at h
    exact ⟨y', by rw [h.1], h.2⟩

/-- A token that is found ends in the text, behind the ignored text in front of it. -/
theorem tokenResult_bounds (ho : o ≤ ctx.source.size) {depth : Nat} {kind : TokenKind} {symbol : Nat}
    (h : (tokenResult ctx depth kind ⟨symbol, o⟩).outcome = .ok stop y) :
    o ≤ stop ∧ stop ≤ ctx.source.size := by
  have hlinked := skipped_linked ho
  have hle := hlinked.le_stop
  have hsize := hlinked.stop_le
  suffices (skipped ctx o).1 ≤ stop ∧ stop ≤ ctx.source.size by omega
  -- a scanner inside the text ends inside the text, behind its start
  have key : ∀ {l : Look} {m : Nat}, l.Inside ctx.source.text (skipped ctx o).1 →
      l.reach = .upTo m → (skipped ctx o).1 ≤ m ∧ m ≤ ctx.source.size :=
    fun hin hreach => ⟨(hin.upTo hreach).1, (hin.upTo hreach).2.1⟩
  cases kind with
  | number =>
    obtain ⟨m, hreach, hfound⟩ := nodeResult_eq_ok h
    cases hfound
    exact key (Scan.number_inside hsize) hreach
  | string =>
    obtain ⟨m, hreach, hfound⟩ := nodeResult_eq_ok h
    cases hfound
    exact key (Scan.quoted_inside hsize) hreach
  | ident =>
    obtain ⟨m, hreach, hfound⟩ := nodeResult_eq_ok h
    cases hfound
    exact key (Scan.identifier_inside hsize) hreach
  | newline =>
    obtain ⟨m, hreach, hfound⟩ := scanned_eq_ok h
    cases hfound
    exact key (Scan.newline_inside hsize) hreach
  | endOfInput =>
    have hscan := key (Scan.blanks_inside hsize) rfl
    simp only [tokenResult] at h
    split at h
    · cases h; exact hscan
    · cases h
  | indent => cases h
  | dedent => cases h

theorem ruleResult_eq_ok {depth : Nat} {rule : Rule} {key : Key} {start : Nat} {out : Outcome}
    {frame : Frame} (h : (ruleResult ctx depth rule key start out frame).outcome = .ok stop y) :
    ∃ y', out = .ok stop y' := by
  cases out with
  | fail => cases h
  | ok stop' y' =>
    simp only [ruleResult] at h
    split at h
    · cases h; exact ⟨_, rfl⟩
    · cases h; exact ⟨_, rfl⟩

/-- A derivation that starts in the text ends in it, and not in front of its start. -/
theorem Derives.bounds {g : Goal} {out : Outcome} {tr : List Event} (h : Derives ctx g o out tr)
    (ho : o ≤ ctx.source.size) (hout : out = .ok stop y) : o ≤ stop ∧ stop ≤ ctx.source.size := by
  induction h generalizing stop y with
  | @literal label text o out l hl hres =>
    obtain ⟨m, hreach, hfound⟩ := scanned_eq_ok (hres.symm.trans hout)
    cases hfound
    have hlinked := skipped_linked ho
    have hle := hlinked.le_stop
    have hin := Scan.literal_inside hlinked.stop_le text (isWord text)
    rw [← hl] at hin
    have := hin.upTo hreach
    exact ⟨by omega, this.2.1⟩
  | @charClass label c o out l hl hres =>
    obtain ⟨m, hreach, hfound⟩ := scanned_eq_ok (hres.symm.trans hout)
    cases hfound
    have hin := Scan.byte_inside ho c.accepts
    rw [← hl] at hin
    exact ⟨(hin.upTo hreach).1, (hin.upTo hreach).2.1⟩
  | @anyByte label o out l hl hres =>
    obtain ⟨m, hreach, hfound⟩ := scanned_eq_ok (hres.symm.trans hout)
    cases hfound
    have hin := Scan.byte_inside ho fun _ => true
    rw [← hl] at hin
    exact ⟨(hin.upTo hreach).1, (hin.upTo hreach).2.1⟩
  | ruleAtom _ ih => exact ih ho hout
  | tokenAtom _ ih => exact ih ho hout
  | star _ ih => exact ih ho hout
  | plus _ _ ih => exact ih ho hout
  | plus_fail _ _ => cases hout
  | option _ ih => exact ih ho hout
  | option_fail _ _ => cases hout; exact ⟨Nat.le_refl _, ho⟩
  | ahead _ _ => cases hout; exact ⟨Nat.le_refl _, ho⟩
  | ahead_fail _ _ => cases hout
  | notAhead _ _ => cases hout
  | notAhead_fail _ _ => cases hout; exact ⟨Nat.le_refl _, ho⟩
  | many_fail _ _ => cases hout; exact ⟨Nat.le_refl _, ho⟩
  | many_stay _ _ => cases hout; exact ⟨Nat.le_refl _, ho⟩
  | many_more _ _ _ ih ihs =>
    have h₁ := ih ho rfl
    cases hout
    have h₂ := ihs h₁.2 rfl
    exact ⟨Nat.le_trans h₁.1 h₂.1, h₂.2⟩
  | seq _ ih => exact ih ho hout
  | seq_nil => cases hout; exact ⟨Nat.le_refl _, ho⟩
  | seq_fail _ _ => cases hout
  | seq_stop _ _ _ _ => cases hout
  | seq_cons _ _ ih ihs =>
    have h₁ := ih ho rfl
    cases hout
    have h₂ := ihs h₁.2 rfl
    exact ⟨Nat.le_trans h₁.1 h₂.1, h₂.2⟩
  | choice _ ih => exact ih ho hout
  | choice_nil => cases hout
  | choice_first _ ih => exact ih ho hout
  | choice_next _ _ _ ihs => exact ihs ho hout
  | name_rule _ _ ih => exact ih ho hout
  | name_token _ _ _ _ ih => exact ih ho hout
  | name_fail _ _ => cases hout
  | @rule id rule o out tr res entry _ _ hentry hres ih =>
    rw [hentry] at hres
    obtain ⟨y', hy', -⟩ := Outcome.flat_eq_ok (hres.symm.trans hout)
    obtain ⟨y'', hy''⟩ := ruleResult_eq_ok hy'
    have hlinked := skipped_linked ho
    have h₁ := ih hlinked.stop_le hy''
    have h₂ := hlinked.le_stop
    exact ⟨by omega, h₁.2⟩
  | token hentry hres =>
    rw [hentry] at hres
    obtain ⟨y', hy', -⟩ := Outcome.flat_eq_ok (hres.symm.trans hout)
    exact tokenResult_bounds ho hy'

end Bounds

end Parse

end Packrat
