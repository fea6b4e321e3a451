import Packrat.Parse.State

/-!
The matcher.

`matchExpr` follows the expression and is given the way to match a rule; `invoke` matches a rule by
its pattern, and rules inside it with one level less to spend.  So the first recursion is on the
expression and the second on the number of levels that are left.

Ignored text is skipped in front of every rule, token and literal, if the grammar says so.  Choices
are ordered, repetitions take as much as they can and stop at a match that does not advance.
-/

namespace Packrat

namespace Parse

/-! ### Nodes -/

/-- The leaf of a piece of text between nodes; text that is only white space has none. -/
def operatorLeaf? (ctx : Context) (depth : Nat) (bytes : Bytes) (o : Nat) : Option Subtree :=
  if bytes.all Byte.isSpace then none
  else
    let (line, column) := ctx.source.position o
    some (.node
      { type := Bytes.ascii "Operator", value := .text bytes, line, column, start := o,
        stop := o + bytes.length, invoked := o, depth := depth + 1 } [])

/-- The child that a piece becomes below a node of the given depth. -/
def Piece.child? (ctx : Context) (depth : Nat) : Piece → Option Subtree
  | node _ tree => some tree
  | text bytes o => operatorLeaf? ctx depth bytes o

/-- A node around a yield: a single text is its value, everything else its children. -/
def Yield.wrap (ctx : Context) (info : NodeInfo) : Yield → Subtree
  | one (.node _ tree) => .node info [tree]
  | one (.text bytes _) => .node { info with value := .text bytes } []
  | many ps => .node info (ps.toList.filterMap (Piece.child? ctx info.depth))

/-! ### Ignored text and tokens -/

/-- Skips ignored text, if the grammar says so. -/
def skip (ctx : Context) (o : Nat) : Eval Nat := do
  if ctx.grammar.skipsIgnored then
    match Scan.ignored ctx.source.text ctx.grammar.comments o (← get).frame.reads with
    | some (o, reads) =>
      modify fun s => { s with frame := { s.frame with reads } }
      return o
    | none => throw .beyond
  else return o

/-- The number of a token kind among the symbols: they stand behind the rules. -/
def tokenSymbol (ctx : Context) (kind : TokenKind) : Nat := ctx.grammar.rules.size + kind.index

/-- The node of a token. -/
def tokenNode (ctx : Context) (key : Key) (depth start stop : Nat) (type : Bytes) (value : Value)
    (reads : Footprint) : Outcome :=
  let (line, column) := ctx.source.position start
  let info : NodeInfo :=
    { type, value, line, column, start, stop, invoked := key.offset, depth := depth + 1, reads }
  .ok stop (.one (.node key (.node info [])))

/-- What a scan for a token makes of a token that yields a node. -/
def nodeEntry (reads : Footprint) (l : Look) (found : Nat → Footprint → Outcome) : Eval Entry :=
  let reads := reads.note l
  match l.reach with
  | .upTo stop => return { outcome := found stop reads }
  | .nothing => return { outcome := .fail, reads }
  | .beyond => throw .beyond

/-- Matches a token behind ignored text; `depth` is the number of rules around it. -/
def tokenEntry (ctx : Context) (depth : Nat) (kind : TokenKind) (key : Key) : Eval Entry := do
  let outer ← Eval.enter
  let start ← skip ctx key.offset
  let reads := (← Eval.leave outer).reads
  Eval.attempt kind.name start
  let text := ctx.source.text
  match kind with
  | .number =>
    nodeEntry reads (Scan.number text start) fun stop reads =>
      tokenNode ctx key depth start stop (Bytes.ascii "Number")
        (.ofNumber (ctx.source.slice start stop)) reads
  | .string =>
    nodeEntry reads (Scan.quoted text start) fun stop reads =>
      tokenNode ctx key depth start stop (Bytes.ascii "String")
        (.text (ctx.source.slice (start + 1) (stop - 1))) reads
  | .ident =>
    nodeEntry reads (Scan.identifier text start) fun stop reads =>
      tokenNode ctx key depth start stop (Bytes.ascii "Identifier")
        (.text (ctx.source.slice start stop)) reads
  | .newline =>
    let l := Scan.newline text start
    let outcome := match l.reach with
      | .upTo stop => .ok stop .empty
      | _ => .fail
    return { outcome, reads := reads.note l }
  | .endOfInput =>
    let stop := text.scanWhile Byte.isBlank start
    let outcome := if text.size ≤ stop then .ok stop .empty else .fail
    return { outcome, reads := reads.note (Scan.blanks text start) }
  | .indent | .dedent =>
    Eval.log .debug
      (Bytes.ascii "Token " ++ kind.name ++ Bytes.ascii " is reserved and never matches")
    return { outcome := .fail, reads }

/-- Matches a token. -/
def matchToken (ctx : Context) (depth : Nat) (kind : TokenKind) (o : Nat) : Eval Outcome :=
  let key := ⟨tokenSymbol ctx kind, o⟩
  Eval.remember key (tokenEntry ctx depth kind key)

/-! ### Expressions -/

/-- A way to match a rule, by its number, at an offset. -/
abbrev Invoke := (rule o : Nat) → Eval Outcome

/-- Matches what a name stands for: a rule, a token, or nothing. -/
def matchName (ctx : Context) (call : Invoke) (depth : Nat) (name : Bytes) (o : Nat) :
    Eval Outcome :=
  match ctx.grammar.find? name with
  | some id => call id o
  | none =>
    match TokenKind.ofName? name with
    | some kind =>
      if kind.isReserved then do
        Eval.attempt name o
        return .fail
      else matchToken ctx depth kind o
    | none => do
      Eval.attempt name o
      return .fail

/-- Whether a literal is a word, which must not go on behind its end. -/
def isWord (text : Bytes) : Bool := !text.isEmpty && text.all Byte.isAlpha

/-- One byte of a class as a match. -/
def matchByte (ctx : Context) (inside : UInt8 → Bool) (o : Nat) : Eval Outcome :=
  Eval.scan (Scan.byte ctx.source.text inside o) fun stop =>
    .ok stop (.one (.text (ctx.source.slice o stop) o))

/-- Matches an atom. -/
def matchAtom (ctx : Context) (call : Invoke) (depth : Nat) (a : Atom) (o : Nat) : Eval Outcome :=
  match a with
  | .literal text => do
    let start ← skip ctx o
    Eval.scan (Scan.literal ctx.source.text text (isWord text) start) fun stop =>
      .ok stop (.one (.text text start))
  | .charClass c => matchByte ctx c.accepts o
  | .anyByte => matchByte ctx (fun _ => true) o
  | .rule name => matchName ctx call depth name o
  | .token kind => matchToken ctx depth kind o

/-- Matches as often as it succeeds and moves, at most `fuel` times; counts the matches. -/
def matchMany (body : Nat → Eval Outcome) :
    (fuel count o : Nat) → Array Piece → Eval (Nat × Nat × Array Piece)
  | 0, count, o, ps => return (count, o, ps)
  | fuel + 1, count, o, ps => do
    match ← body o with
    | .fail => return (count, o, ps)
    | .ok stop y =>
      if stop = o then return (count, o, ps)
      else matchMany body fuel (count + 1) stop (ps ++ y.pieces)

/-- A repetition with a least number of matches.  An offset moves at most once for every byte, and
once more from behind the end to the end. -/
def matchRepetition (ctx : Context) (least : Nat) (body : Nat → Eval Outcome) (o : Nat) :
    Eval Outcome := do
  let (count, stop, ps) ← matchMany body (ctx.source.size + 2) 0 o #[]
  return if count < least then .fail else .ok stop (.many ps)

/-- What an operator makes of the way to match its operand. -/
def matchOperator (ctx : Context) (op : Operator) (body : Nat → Eval Outcome) (o : Nat) :
    Eval Outcome :=
  match op with
  | .star => matchRepetition ctx 0 body o
  | .plus => matchRepetition ctx 1 body o
  | .option => do
    match ← body o with
    | .fail => return .ok o .empty
    | .ok stop y => return .ok stop y
  | .ahead => do
    match ← body o with
    | .fail => return .fail
    | .ok _ _ => return .ok o .empty
  | .notAhead => do
    match ← body o with
    | .fail => return .ok o .empty
    | .ok _ _ => return .fail

mutual

/-- Matches an expression; `depth` is the number of rules around it. -/
def matchExpr (ctx : Context) (call : Invoke) (depth : Nat) : Expr → (o : Nat) → Eval Outcome
  | .atom _ a, o => matchAtom ctx call depth a o
  | .apply _ op e, o => matchOperator ctx op (fun o => matchExpr ctx call depth e o) o
  | .seq _ items, o => matchSeq ctx call depth items o #[]
  | .choice _ items, o => matchChoice ctx call depth items o

/-- Matches expressions one after the other. -/
def matchSeq (ctx : Context) (call : Invoke) (depth : Nat) :
    List Expr → (o : Nat) → Array Piece → Eval Outcome
  | [], o, ps => return .ok o (.many ps)
  | e :: es, o, ps => do
    match ← matchExpr ctx call depth e o with
    | .fail => return .fail
    | .ok stop y => matchSeq ctx call depth es stop (ps ++ y.pieces)

/-- Matches the first expression that succeeds. -/
def matchChoice (ctx : Context) (call : Invoke) (depth : Nat) : List Expr → (o : Nat) → Eval Outcome
  | [], _ => return .fail
  | e :: es, o => do
    match ← matchExpr ctx call depth e o with
    | .fail => matchChoice ctx call depth es o
    | .ok stop y => return .ok stop y

end

/-! ### Rules -/

/-- The rule with a number. -/
def ruleOf (ctx : Context) (id : Nat) : Eval Rule :=
  match ctx.grammar.rules[id]? with
  | some r => return r
  | none => throw .beyond

/-- Matches a rule by its pattern; `depth` counts the rule itself. -/
def ruleEntry (ctx : Context) (call : Invoke) (depth : Nat) (key : Key) : Eval Entry := do
  let rule ← ruleOf ctx key.symbol
  let outer ← Eval.enter
  let start ← skip ctx key.offset
  Eval.attempt rule.name start
  let outcome ← matchExpr ctx call depth rule.pattern start
  let frame ← Eval.leave outer
  match outcome with
  | .fail => return { outcome := .fail, reads := frame.total }
  | .ok stop y =>
    let reads := frame.settle y
    if rule.isFragment then return { outcome := .ok stop y, reads }
    else
      let (line, column) := ctx.source.position start
      let tree := y.wrap ctx
        { type := rule.nodeType, line, column, start, stop, invoked := key.offset,
          rule := some key.symbol, depth, reads }
      return { outcome := .ok stop (.one (.node key tree)) }

/-- Matches a rule with `budget` levels left, inside `depth` other rules. -/
def invoke (ctx : Context) : (budget depth : Nat) → Invoke
  | 0, depth, id, o =>
    Eval.remember ⟨id, o⟩ do
      let rule ← ruleOf ctx id
      throw (.exhausted rule.name (Offset.wrap ((depth + 1 : Nat) : Int)))
  | budget + 1, depth, id, o =>
    Eval.remember ⟨id, o⟩ (ruleEntry ctx (invoke ctx budget (depth + 1)) (depth + 1) ⟨id, o⟩)

end Parse

end Packrat
