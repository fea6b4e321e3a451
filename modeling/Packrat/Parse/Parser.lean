import Packrat.Parse.Matcher
import Packrat.Tree.Basic

/-!
Parsing a document, or a region of it.

`Parser.parse` matches the start rule at the beginning of a text; behind it only ignored text may
follow. `Parser.region` matches one rule somewhere in a text and accepts the match only if it ends
where it is expected to, which is how a part of a tree is made anew after an edit.
-/

namespace Packrat

/-- Where and at what a parse has failed. -/
structure Mishap where
  offset : Nat
  line : Nat
  column : Nat
  /-- What was tried at the furthest offset. -/
  rule : Bytes
  /-- The text found there. -/
  snippet : Bytes
  deriving DecidableEq, Repr

/-- Why a parse has failed. -/
inductive ParseError where
  /-- The start rule does not match; nothing was tried behind the place of the mishap. -/
  | unexpected (m : Mishap)
  /-- The start rule matches, and the text goes on. -/
  | trailing (m : Mishap)
  /-- More rules than allowed were being matched inside of each other. -/
  | exhausted (limit : Nat) (rule : Bytes) (depth : Nat)
  | undefinedStart (name : Bytes)
  /-- The parse left the text or the grammar. -/
  | beyond
  deriving DecidableEq, Repr

namespace ParseError

/-- The place of a mishap in words. -/
def placeText (m : Mishap) : Bytes :=
  Bytes.ascii "line " ++ Bytes.decimal m.line ++ Bytes.ascii ", column " ++ Bytes.decimal m.column

/-- The message of an error. -/
def message : ParseError → Bytes
  | unexpected m =>
    Bytes.ascii "Parse error at " ++ placeText m ++ Bytes.ascii " (in rule '" ++ m.rule
      ++ Bytes.ascii "'): unexpected '" ++ m.snippet ++ [Byte.quote]
  | trailing m =>
    Bytes.ascii "Unexpected input at " ++ placeText m ++ Bytes.ascii ": '" ++ m.snippet
      ++ [Byte.quote]
  | exhausted limit rule _ =>
    Bytes.ascii "Maximum recursion depth of " ++ Bytes.decimal limit
      ++ Bytes.ascii " exceeded in rule '" ++ rule ++ [Byte.quote]
  | undefinedStart name => (GrammarError.undefinedStart name).message
  | beyond => []

end ParseError

/-- A grammar without left recursion, ready to parse with. -/
structure Parser where
  grammar : Grammar
  /-- How many rules may be matched inside of each other. -/
  maxDepth : Nat
  /-- No rule can reach itself without consuming anything. -/
  leftRecursive_eq : grammar.leftRecursive = []

namespace Parser

/-- The parser of a grammar, if it has no left-recursive rules. -/
def make (g : Grammar) (maxDepth : Nat) : Except GrammarError Parser :=
  match h : g.leftRecursive with
  | [] => .ok ⟨g, maxDepth, h⟩
  | names => .error (.leftRecursive g.name names)

/-- The depth of nesting allowed unless something else is asked for. -/
def defaultMaxDepth : Nat := 1000

open Parse

/-- How the parse of a document has ended. -/
inductive Verdict where
  | failed
  | trailing (o : Nat)
  | matched (tree : Subtree) (reads : Footprint)

/-- Skips what may follow the document. -/
def skipRest (ctx : Context) (o : Nat) : Eval Nat := do
  if ctx.grammar.skipsIgnored then skip ctx o
  else
    Eval.examine (Scan.blanks ctx.source.text o)
    return ctx.source.text.scanWhile Byte.isBlank o

/-- The root of a document: the node of the start rule, or a node around what a fragment yields. -/
def rootOf (ctx : Context) (stop : Nat) : Yield → Subtree
  | .one (.node _ tree) => tree
  | y =>
    let (line, column) := ctx.source.position 0
    y.wrap ctx { type := Bytes.ascii "Program", line, column, stop }

/-- Matches a whole document. -/
def document (ctx : Context) (maxDepth : Nat) (name : Bytes) : Eval Verdict := do
  match ← matchName ctx (invoke ctx maxDepth 0) 0 name 0 with
  | .fail => return .failed
  | .ok stop y =>
    let rest ← skipRest ctx stop
    if rest < ctx.source.size then return .trailing rest
    else return .matched (rootOf ctx stop y) ((← get).frame.settle y)

/-- The length of the text shown with a mishap. -/
def snippetLength : Nat := 30

/-- The mishap at an offset. -/
def mishap (source : Source) (o : Nat) (rule snippet : Bytes) : Mishap :=
  let (line, column) := source.position o
  { offset := o, line, column, rule, snippet }

/-- The error of a parse that was broken off. -/
def stopError (p : Parser) : Stop → ParseError
  | .exhausted rule depth => .exhausted p.maxDepth rule depth
  | .beyond => .beyond

/-- Parses a document with a rule or token to start with. -/
def parseWith (p : Parser) (name : Bytes) (source : Source) : Logged (Except ParseError Tree) := do
  if !p.grammar.declares name && !Grammar.isToken name then return .error (.undefinedStart name)
  match (document ⟨p.grammar, source⟩ p.maxDepth name).run {} with
  | .error e s =>
    modify (· ++ s.log)
    return .error (p.stopError e)
  | .ok verdict s =>
    modify (· ++ s.log)
    match verdict with
    | .failed =>
      let ahead := source.slice s.furthest (s.furthest + snippetLength)
      let snippet := ahead.takeWhile (· != Byte.newline)
      return .error (.unexpected (mishap source s.furthest s.attempt snippet))
    | .trailing o =>
      let snippet := source.slice o (o + snippetLength)
      return .error (.trailing (mishap source o s.attempt snippet))
    | .matched tree reads =>
      let tree := Tree.ofSubtree source reads tree
      Log.write .debug
        (Bytes.ascii "Parsed " ++ Bytes.decimal source.size ++ Bytes.ascii " bytes into "
          ++ Bytes.decimal tree.size ++ Bytes.ascii " nodes, " ++ Bytes.decimal s.memo.size
          ++ Bytes.ascii " memo entries")
      return .ok tree

/-- Parses a document. -/
def parse (p : Parser) (source : Source) : Logged (Except ParseError Tree) :=
  p.parseWith p.grammar.start source

/-- The node of an outcome that ends at the given offset. -/
def nodeAt? (stop : Nat) : Outcome → Option Subtree
  | .ok o (.one (.node _ tree)) => if o = stop then some tree else none
  | _ => none

/-- Matches one rule at an offset, as deep inside other rules as a node of the given depth; there is
no result unless it is a node that ends at `stop`. -/
def region (p : Parser) (source : Source) (rule o stop depth : Nat) :
    Logged (Except ParseError (Option Subtree)) := do
  let outside := depth - 1
  match (invoke ⟨p.grammar, source⟩ (p.maxDepth - outside) outside rule o).run {} with
  | .error e s =>
    modify (· ++ s.log)
    return .error (p.stopError e)
  | .ok outcome s =>
    modify (· ++ s.log)
    match nodeAt? stop outcome with
    | some tree => return .ok (some tree)
    | none =>
      let name := ((p.grammar.rules[rule]?).map (·.name)).getD []
      Log.write .debug
        (Bytes.ascii "Region of rule '" ++ name ++ Bytes.ascii "' at " ++ Bytes.decimal o
          ++ Bytes.ascii " does not end at " ++ Bytes.decimal stop)
      return .ok none

end Parser

end Packrat
