import Packrat.Proofs.Parse.Memo

/-!
The matcher with a journal.

The matcher keeps outcomes, but not what it has done to get them.  Here it does the same and writes down,
in order, every rule and token whose body it starts, every attempt it notes and every outcome it stores
in the memory (`Act`).

Design.  A journal is handed through beside the state (`Journaled`), so nothing that is evaluated can look
at it.  The functions are those of the matcher, line by line, with a note at the three places in question;
what makes no such note is taken over as it is.  Leaving the journal out gives the matcher back
(`Erases`), with the same outcome and the same state: `Journaled.document_erases`.
-/

namespace Packrat

namespace Parse

/-- What is written into a journal. -/
inductive Act where
  /-- The body of a rule or token is started at an offset. -/
  | started (key : Key)
  /-- Something is tried at an offset. -/
  | tried (name : Bytes) (o : Nat)
  /-- The outcome of a rule or token at an offset is stored in the memory. -/
  | stored (key : Key)
  deriving DecidableEq

/-- Steps of a parse that keeps a journal. -/
abbrev Journaled := StateT (List Act) Eval

namespace Journaled

/-! ### The matcher -/

/-- Writes into the journal. -/
def note (a : Act) : Journaled Unit := modify (· ++ [a])

def attempt (name : Bytes) (o : Nat) : Journaled Unit := do
  note (.tried name o)
  Eval.attempt name o

def remember (key : Key) (compute : Journaled Entry) : Journaled Outcome := do
  match (← (get : Eval State)).memo[key]? with
  | some e =>
    Eval.consume e
    return e.outcome
  | none =>
    note (.started key)
    let e ← compute
    (modify fun s => { s with memo := s.memo.insert key e } : Eval Unit)
    note (.stored key)
    Eval.consume e
    return e.outcome

/-- The attempt of a token is noted in front of its match, which skips ignored text first. -/
def tokenEntry (ctx : Context) (depth : Nat) (kind : TokenKind) (key : Key) : Journaled Entry := do
  note (.tried kind.name (skipped ctx key.offset).1)
  Parse.tokenEntry ctx depth kind key

def matchToken (ctx : Context) (depth : Nat) (kind : TokenKind) (o : Nat) : Journaled Outcome :=
  let key := ⟨tokenSymbol ctx kind, o⟩
  remember key (tokenEntry ctx depth kind key)

/-- A way to match a rule, by its number, at an offset. -/
abbrev Invoke := (rule o : Nat) → Journaled Outcome

def matchName (ctx : Context) (call : Invoke) (depth : Nat) (name : Bytes) (o : Nat) :
    Journaled Outcome :=
  match ctx.grammar.find? name with
  | some id => call id o
  | none =>
    match TokenKind.ofName? name with
    | some kind =>
      if kind.isReserved then do
        attempt name o
        return .fail
      else matchToken ctx depth kind o
    | none => do
      attempt name o
      return .fail

def matchAtom (ctx : Context) (call : Invoke) (depth : Nat) (a : Atom) (o : Nat) : Journaled Outcome :=
  match a with
  | .rule name => matchName ctx call depth name o
  | .token kind => matchToken ctx depth kind o
  | .literal _ | .charClass _ | .anyByte =>
    -- asks for no rule
    Parse.matchAtom ctx (fun _ _ => return .fail) depth a o

def matchMany (body : Nat → Journaled Outcome) :
    (fuel count o : Nat) → Array Piece → Journaled (Nat × Nat × Array Piece)
  | 0, count, o, ps => return (count, o, ps)
  | fuel + 1, count, o, ps => do
    match ← body o with
    | .fail => return (count, o, ps)
    | .ok stop y =>
      if stop = o then return (count, o, ps)
      else matchMany body fuel (count + 1) stop (ps ++ y.pieces)

def matchRepetition (ctx : Context) (least : Nat) (body : Nat → Journaled Outcome) (o : Nat) :
    Journaled Outcome := do
  let (count, stop, ps) ← matchMany body (ctx.source.size + 2) 0 o #[]
  return if count < least then .fail else .ok stop (.many ps)

def matchOperator (ctx : Context) (op : Operator) (body : Nat → Journaled Outcome) (o : Nat) :
    Journaled Outcome :=
  match op with
  | .star => matchRepetition ctx 0 body o
  | .plus => matchRepetition ctx 1 body o
  | .option => do
    match ← body o with
    | .fail => return .ok o .empty
    | .ok stop y => return .ok stop y
  | .ahead => do
    match ← body o with
    | .fail => return .fail
    | .ok _ _ => return .ok o .empty
  | .notAhead => do
    match ← body o with
    | .fail => return .ok o .empty
    | .ok _ _ => return .fail

mutual

def matchExpr (ctx : Context) (call : Invoke) (depth : Nat) : Expr → (o : Nat) → Journaled Outcome
  | .atom _ a, o => matchAtom ctx call depth a o
  | .apply _ op e, o => matchOperator ctx op (fun o => matchExpr ctx call depth e o) o
  | .seq _ items, o => matchSeq ctx call depth items o #[]
  | .choice _ items, o => matchChoice ctx call depth items o

def matchSeq (ctx : Context) (call : Invoke) (depth : Nat) :
    List Expr → (o : Nat) → Array Piece → Journaled Outcome
  | [], o, ps => return .ok o (.many ps)
  | e :: es, o, ps => do
    match ← matchExpr ctx call depth e o with
    | .fail => return .fail
    | .ok stop y => matchSeq ctx call depth es stop (ps ++ y.pieces)

def matchChoice (ctx : Context) (call : Invoke) (depth : Nat) :
    List Expr → (o : Nat) → Journaled Outcome
  | [], _ => return .fail
  | e :: es, o => do
    match ← matchExpr ctx call depth e o with
    | .fail => matchChoice ctx call depth es o
    | .ok stop y => return .ok stop y

end

def ruleEntry (ctx : Context) (call : Invoke) (depth : Nat) (key : Key) : Journaled Entry := do
  let rule ← ruleOf ctx key.symbol
  let outer ← Eval.enter
  let start ← skip ctx key.offset
  attempt rule.name start
  let outcome ← matchExpr ctx call depth rule.pattern start
  let frame ← Eval.leave outer
  return ruleResult ctx depth rule key start outcome frame

def invoke (ctx : Context) : (budget depth : Nat) → Invoke
  | 0, depth, id, o =>
    remember ⟨id, o⟩ do
      let rule ← ruleOf ctx id
      throw (.exhausted rule.name (Offset.wrap ((depth + 1 : Nat) : Int)))
  | budget + 1, depth, id, o =>
    remember ⟨id, o⟩ (ruleEntry ctx (invoke ctx budget (depth + 1)) (depth + 1) ⟨id, o⟩)

/-- What becomes of the document once its start has been matched. -/
def conclude (ctx : Context) : Outcome → Eval Parser.Verdict
  | .fail => return .failed
  | .ok stop y => do
    let rest ← Parser.skipRest ctx stop
    if rest < ctx.source.size then return .trailing rest
    else return .matched (Parser.rootOf ctx stop y) ((← get).frame.settle y)

def document (ctx : Context) (maxDepth : Nat) (name : Bytes) : Journaled Parser.Verdict := do
  let outcome ← matchName ctx (invoke ctx maxDepth 0) 0 name 0
  conclude ctx outcome

/-! ### Leaving the journal out -/

/-- Without its journal the one evaluation is the other. -/
def Erases {α : Type} (m : Journaled α) (m' : Eval α) : Prop := ∀ j, Prod.fst <$> m j = m'

namespace Erases

variable {α β : Type} {m : Journaled α} {m' : Eval α} {f : α → Journaled β} {f' : α → Eval β}

theorem bind (h : Erases m m') (hf : ∀ a, Erases (f a) (f' a)) : Erases (m >>= f) (m' >>= f') := by
  intro j
  calc Prod.fst <$> (m j >>= fun r => f r.1 r.2)
      = m j >>= fun r => Prod.fst <$> f r.1 r.2 := map_bind ..
    _ = m j >>= fun r => f' r.1 := bind_congr fun r => hf r.1 r.2
    _ = (Prod.fst <$> m j) >>= f' := (bind_map_left ..).symm
    _ = m' >>= f' := by rw [h j]

theorem pure (a : α) : Erases (pure a) (pure a) := fun _ => map_pure ..

/-- What takes no notes is taken over. -/
theorem lift (m' : Eval α) : Erases (liftM m') m' := by
  intro j
  calc Prod.fst <$> (m' >>= fun a => Pure.pure (a, j))
      = m' >>= fun a => Prod.fst <$> (Pure.pure (a, j) : Eval (α × List Act)) := map_bind ..
    _ = m' >>= fun a => Pure.pure a := bind_congr fun a => map_pure ..
    _ = m' := bind_pure m'

/-- A note is left out. -/
theorem note (a : Act) {f : Unit → Journaled β} {m' : Eval β} (h : Erases (f ()) m') :
    Erases (Journaled.note a >>= f) m' := fun j => h (j ++ [a])

/-- A run without a journal is a run with one. -/
theorem exists_run (h : Erases m m') {s s' : State} {a : α} (hrun : m' s = .ok a s') (j : List Act) :
    ∃ j', m j s = .ok (a, j') s' := by
  have herase := congrFun (h j) s
  rw [hrun] at herase
  change EStateM.map Prod.fst (m j) s = _ at herase
  unfold EStateM.map at herase
  cases hm : m j s with
  | ok r s₁ =>
    rw [hm] at herase
    cases herase
    exact ⟨r.2, rfl⟩
  | error e s₁ =>
    rw [hm] at herase
    cases herase

theorem attempt (name : Bytes) (o : Nat) : Erases (Journaled.attempt name o) (Eval.attempt name o) :=
  note _ (lift _)

theorem remember (key : Key) {compute : Journaled Entry} {compute' : Eval Entry}
    (h : Erases compute compute') :
    Erases (Journaled.remember key compute) (Eval.remember key compute') := by
  -- both find the same memory, so both start the body or neither does
  refine (lift get).bind fun s => ?_
  cases s.memo[key]? with
  | some e => exact (lift _).bind fun _ => pure _
  | none =>
    exact note _ (h.bind fun e => (lift _).bind fun _ => note _ ((lift _).bind fun _ => pure _))

theorem matchToken (ctx : Context) (depth : Nat) (kind : TokenKind) (o : Nat) :
    Erases (Journaled.matchToken ctx depth kind o) (Parse.matchToken ctx depth kind o) :=
  remember _ (note _ (lift _))

variable {ctx : Context} {call : Invoke} {call' : Parse.Invoke}
  (hcall : ∀ id o, Erases (call id o) (call' id o))

include hcall

theorem matchName (depth : Nat) (name : Bytes) (o : Nat) :
    Erases (Journaled.matchName ctx call depth name o) (Parse.matchName ctx call' depth name o) := by
  have hfail : Erases (do Journaled.attempt name o; return .fail)
      (do Eval.attempt name o; return Outcome.fail) := (attempt name o).bind fun _ => pure _
  unfold Journaled.matchName Parse.matchName
  cases ctx.grammar.find? name with
  | some id => exact hcall id o
  | none =>
    cases TokenKind.ofName? name with
    | some kind =>
      dsimp only
      split
      · exact hfail
      · exact matchToken ctx depth kind o
    | none => exact hfail

theorem matchAtom (depth : Nat) (a : Atom) (o : Nat) :
    Erases (Journaled.matchAtom ctx call depth a o) (Parse.matchAtom ctx call' depth a o) := by
  cases a with
  | rule name => exact matchName hcall depth name o
  | token kind => exact matchToken ctx depth kind o
  | literal text => exact lift _
  | charClass c => exact lift _
  | anyByte => exact lift _

omit hcall

variable {body : Nat → Journaled Outcome} {body' : Nat → Eval Outcome}
  (hbody : ∀ o, Erases (body o) (body' o))

include hbody

theorem matchMany (fuel count o : Nat) (ps : Array Piece) :
    Erases (Journaled.matchMany body fuel count o ps) (Parse.matchMany body' fuel count o ps) := by
  induction fuel generalizing count o ps with
  | zero => exact pure _
  | succ fuel ih =>
    refine (hbody o).bind fun out => ?_
    cases out with
    | fail => exact pure _
    | ok stop y =>
      dsimp only
      split
      · exact pure _
      · exact ih _ _ _

theorem matchOperator (op : Operator) (o : Nat) :
    Erases (Journaled.matchOperator ctx op body o) (Parse.matchOperator ctx op body' o) := by
  cases op with
  | star | plus => exact (matchMany hbody _ _ _ _).bind fun _ => pure _
  | option | ahead | notAhead =>
    refine (hbody o).bind fun out => ?_
    cases out <;> exact pure _

omit hbody

mutual

theorem matchExpr (hcall : ∀ id o, Erases (call id o) (call' id o)) (depth : Nat) :
    ∀ (e : Expr) (o : Nat),
      Erases (Journaled.matchExpr ctx call depth e o) (Parse.matchExpr ctx call' depth e o)
  | .atom _ a, o => by
    rw [Journaled.matchExpr, Parse.matchExpr]
    exact .matchAtom hcall depth a o
  | .apply _ op e, o => by
    rw [Journaled.matchExpr, Parse.matchExpr]
    exact .matchOperator (fun o => matchExpr hcall depth e o) op o
  | .seq _ es, o => by
    rw [Journaled.matchExpr, Parse.matchExpr]
    exact matchSeq hcall depth es o #[]
  | .choice _ es, o => by
    rw [Journaled.matchExpr, Parse.matchExpr]
    exact matchChoice hcall depth es o

theorem matchSeq (hcall : ∀ id o, Erases (call id o) (call' id o)) (depth : Nat) :
    ∀ (es : List Expr) (o : Nat) (ps : Array Piece),
      Erases (Journaled.matchSeq ctx call depth es o ps) (Parse.matchSeq ctx call' depth es o ps)
  | [], o, ps => by
    rw [Journaled.matchSeq, Parse.matchSeq]
    exact .pure _
  | e :: es, o, ps => by
    rw [Journaled.matchSeq, Parse.matchSeq]
    refine (matchExpr hcall depth e o).bind fun out => ?_
    cases out with
    | fail => exact .pure _
    | ok stop y => exact matchSeq hcall depth es stop _

theorem matchChoice (hcall : ∀ id o, Erases (call id o) (call' id o)) (depth : Nat) :
    ∀ (es : List Expr) (o : Nat),
      Erases (Journaled.matchChoice ctx call depth es o) (Parse.matchChoice ctx call' depth es o)
  | [], o => by
    rw [Journaled.matchChoice, Parse.matchChoice]
    exact .pure _
  | e :: es, o => by
    rw [Journaled.matchChoice, Parse.matchChoice]
    refine (matchExpr hcall depth e o).bind fun out => ?_
    cases out with
    | fail => exact matchChoice hcall depth es o
    | ok stop y => exact .pure _

end

/-- What comes out of a rule is computed from the outcome of its pattern and its frame. -/
theorem ruleEntry (hcall : ∀ id o, Erases (call id o) (call' id o)) (depth : Nat) (key : Key) :
    Erases (Journaled.ruleEntry ctx call depth key) (Parse.ruleEntry ctx call' depth key) := by
  refine (lift _).bind fun rule => (lift _).bind fun outer => (lift _).bind fun start =>
    (attempt _ _).bind fun _ => (matchExpr hcall depth _ _).bind fun out =>
    (lift _).bind fun frame => ?_
  unfold ruleResult
  cases out with
  | fail => exact pure _
  | ok stop y =>
    dsimp only
    split <;> exact pure _

theorem invoke (ctx : Context) (budget depth id o : Nat) :
    Erases (Journaled.invoke ctx budget depth id o) (Parse.invoke ctx budget depth id o) := by
  induction budget generalizing depth id o with
  | zero => exact remember _ ((lift _).bind fun rule => lift (throw _))
  | succ budget ih => exact remember _ (ruleEntry (ih _) _ _)

end Erases

/-- A document is matched with a journal as it is without. -/
theorem document_erases (ctx : Context) (maxDepth : Nat) (name : Bytes) :
    Erases (document ctx maxDepth name) (Parser.document ctx maxDepth name) := by
  refine (Erases.matchName (.invoke ctx maxDepth 0) 0 name 0).bind fun out => ?_
  cases out with
  | fail => exact .pure _
  | ok stop y => exact .lift _

end Journaled

end Parse

end Packrat
