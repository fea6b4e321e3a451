import Packrat.Comment
import Packrat.Expr.Printer
import Packrat.Expr.Token

/-!
Grammars: named rules in order, with the settings that go with them.

A rule is known by its number, which is its place in the list and never changes: defining a name
again replaces the rule and keeps the place.  `Grammar.problems` lists what is wrong with a grammar,
and `Grammar.leftRecursive` the rules that can reach themselves without consuming anything.
-/

namespace Packrat

/-- A named rule. -/
structure Rule where
  name : Bytes
  pattern : Expr
  /-- The type of the nodes that the rule makes. -/
  nodeType : Bytes
  /-- A fragment makes no node and hands its values on to the rule that invoked it. -/
  isFragment : Bool
  description : Bytes

/-- What was passed over while a grammar was read. -/
inductive Grammar.Note where
  | skippedLine (line : Bytes)
  | reservedToken (rule : Bytes)
  deriving DecidableEq, Repr

/-- A grammar. -/
structure Grammar where
  name : Bytes
  rules : Array Rule := #[]
  chosenStart : Option Bytes := none
  /-- Whether white space and comments are skipped in front of rules, tokens and literals. -/
  skipsIgnored : Bool := true
  comments : List Comment := Comment.defaults
  notes : List Grammar.Note := []

/-- What can be wrong with a grammar. -/
inductive Grammar.Problem where
  | undefinedRule (rule target : Bytes)
  | undefinedStart (name : Bytes)
  | leftRecursive (rule : Bytes)
  deriving DecidableEq, Repr

/-- Why a grammar cannot be made or used. -/
inductive GrammarError where
  | invalidComment (source : Bytes)
  | pattern (e : PatternError)
  | inRule (name : Bytes) (e : PatternError)
  /-- Something was said about the current rule before there was one. -/
  | noRule
  | invalid (problems : List Grammar.Problem)
  | leftRecursive (grammar : Bytes) (rules : List Bytes)
  | undefinedStart (name : Bytes)
  deriving DecidableEq, Repr

namespace Grammar

/-! ### Rules by name -/

/-- The number of the rule with a name. -/
def find? (g : Grammar) (name : Bytes) : Option Nat := g.rules.findIdx? (·.name == name)

def declares (g : Grammar) (name : Bytes) : Bool := (g.find? name).isSome

/-- The pattern of the rule with a name. -/
def pattern? (g : Grammar) (name : Bytes) : Option Expr :=
  (g.find? name).bind fun id => (g.rules[id]?).map (·.pattern)

/-- Defines a rule: in place of the rule with its name, or as the last one.  A node type that is
empty stands for the name. -/
def define (g : Grammar) (r : Rule) : Grammar :=
  let r := if r.nodeType.isEmpty then { r with nodeType := r.name } else r
  match g.find? r.name with
  | some id => { g with rules := g.rules.setIfInBounds id r }
  | none => { g with rules := g.rules.push r }

/-- Defines a rule with a pattern and no settings of its own. -/
def add (g : Grammar) (name : Bytes) (pattern : Expr) : Grammar :=
  g.define { name, pattern, nodeType := [], isFragment := false, description := [] }

/-- Notes what was passed over. -/
def addNote (g : Grammar) (n : Note) : Grammar := { g with notes := g.notes ++ [n] }

/-- The rule to start with: the one chosen, else `program` if it is declared, else the first. -/
def start (g : Grammar) : Bytes :=
  match g.chosenStart with
  | some name => name
  | none =>
    let program := Bytes.ascii "program"
    if g.declares program then program
    else
      match g.rules[0]? with
      | some r => r.name
      | none => program

/-- Reads comment patterns, up to the first that is none. -/
def readComments : List Bytes → Except GrammarError (List Comment)
  | [] => .ok []
  | source :: sources =>
    match Comment.read? source with
    | none => .error (.invalidComment source)
    | some c => (readComments sources).map (c :: ·)

/-- Sets the comment patterns. -/
def withComments (g : Grammar) (sources : List Bytes) : Except GrammarError Grammar :=
  (readComments sources).map fun cs => { g with comments := cs }

/-! ### Checks -/

/-- Whether a name is that of a token that can match. -/
def isToken (name : Bytes) : Bool := (TokenKind.ofName? name).any (!·.isReserved)

/-- Whether one of the pending names leads to `goal` without consuming anything.  Every name is
followed once; at most `fuel` names are looked at. -/
def leadsTo (g : Grammar) (goal : Bytes) : (fuel : Nat) → (visited pending : List Bytes) → Bool
  | 0, _, _ => false
  | _ + 1, _, [] => false
  | fuel + 1, visited, name :: pending =>
    if name == goal then true
    else if visited.contains name then leadsTo g goal fuel visited pending
    else
      let next := ((g.pattern? name).map Expr.leading).getD []
      leadsTo g goal fuel (name :: visited) (next ++ pending)

/-- The number of references that lead on from some rule. -/
def leadingCount (g : Grammar) : Nat :=
  g.rules.toList.foldl (fun n r => n + r.pattern.leading.length) 0

/-- Whether a rule can reach itself without consuming anything. -/
def isLeftRecursive (g : Grammar) (r : Rule) : Bool :=
  g.leadsTo r.name (2 * g.leadingCount + 1) [] r.pattern.leading

/-- The rules that can reach themselves without consuming anything, in order. -/
def leftRecursive (g : Grammar) : List Bytes :=
  (g.rules.toList.filter g.isLeftRecursive).map (·.name)

/-- The references of a rule to names that nothing is declared under. -/
def undefinedReferences (g : Grammar) (r : Rule) : List Problem :=
  (r.pattern.references.filter fun name => !g.declares name && !isToken name).map
    (.undefinedRule r.name)

/-- Everything that is wrong with a grammar. -/
def problems (g : Grammar) : List Problem :=
  g.rules.toList.flatMap g.undefinedReferences
    ++ (if g.declares g.start then [] else [.undefinedStart g.start])
    ++ g.leftRecursive.map .leftRecursive

/-! ### Texts -/

/-- The rules as a grammar text. -/
def text (g : Grammar) : Bytes :=
  g.rules.toList.flatMap fun r => r.name ++ Bytes.ascii " <- " ++ r.pattern.text ++ [Byte.newline]

def Note.message : Note → Bytes
  | .skippedLine line => Bytes.ascii "Skipped line without '<-': " ++ line
  | .reservedToken rule =>
    Bytes.ascii "Rule '" ++ rule ++ Bytes.ascii "' uses a reserved token that never matches"

def Problem.message : Problem → Bytes
  | .undefinedRule rule target =>
    Bytes.ascii "Rule '" ++ rule ++ Bytes.ascii "' references undefined rule '" ++ target
      ++ [Byte.quote]
  | .undefinedStart name => Bytes.ascii "Start rule '" ++ name ++ Bytes.ascii "' is not defined"
  | .leftRecursive rule =>
    Bytes.ascii "Rule '" ++ rule ++ Bytes.ascii "' is left-recursive (not allowed in PEG)"

end Grammar

namespace GrammarError

/-- The message of an error.  What it quotes from another message ends at a zero byte. -/
def message : GrammarError → Bytes
  | invalidComment source => Bytes.ascii "Invalid comment pattern '" ++ source ++ [Byte.quote]
  | pattern e => e.message
  | inRule name e => Bytes.ascii "Rule '" ++ name ++ Bytes.ascii "': " ++ e.message.shown
  | noRule => Bytes.ascii "No rule started, call rule() first"
  | invalid problems =>
    Bytes.ascii "Grammar validation errors: "
      ++ Bytes.join (Bytes.ascii "; ") (problems.map Grammar.Problem.message)
  | leftRecursive grammar rules =>
    Bytes.ascii "Grammar '" ++ grammar ++ Bytes.ascii "' contains left-recursive rules: "
      ++ Bytes.join (Bytes.ascii ", ") rules
  | undefinedStart name => Bytes.ascii "Start rule '" ++ name ++ Bytes.ascii "' is not defined"

end GrammarError

end Packrat
