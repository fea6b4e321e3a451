import Packrat.Expr.Reader
import Packrat.Grammar.Basic
import Packrat.Log

/-!
Grammars from text.

A grammar text has one rule `name <- pattern` to a logical line.  A line that begins with white
space or `|` and has no `<-` continues the rule in front of it, a leading `|` standing for `/`;
empty lines and lines that begin with `#` are left out.  A logical line that is no rule is passed
over with a note.

`Grammar.Config` is a grammar as a configuration gives it: the rules are written out as a text and
read back, so that a pattern means the same in both places.
-/

namespace Packrat

namespace Grammar

/-! ### Logical lines -/

/-- The mark between a name and a pattern. -/
def arrow : Bytes := Bytes.ascii "<-"

/-- Whether a line, and what is left of it without white space around it, goes on with the rule
before. -/
def continues (line stripped : Bytes) : Bool :=
  line.head?.any (fun b => Byte.isSpace b || b == Byte.bar) && !Bytes.occurs arrow stripped

/-- A continuation, with `/` for a leading `|`. -/
def continuation : Bytes → Bytes
  | Byte.bar :: bs => Byte.slash :: bs
  | bs => bs

/-- The logical line read so far, if there is one. -/
def finished (current : Bytes) : List Bytes := if current.isEmpty then [] else [current]

/-- Joins lines into logical lines. -/
def joinLines (current : Bytes) : List Bytes → List Bytes
  | [] => finished current
  | line :: lines =>
    let stripped := Bytes.trim line
    if stripped.isEmpty || stripped.head? == some Byte.hash then joinLines current lines
    else if !current.isEmpty && continues line stripped then
      joinLines (current ++ Byte.blank :: continuation stripped) lines
    else finished current ++ joinLines stripped lines

/-- The logical lines of a grammar text. -/
def logicalLines (text : Bytes) : List Bytes := joinLines [] (Bytes.lines text)

/-- The name and the pattern of a logical line, if it is a rule: the pattern has no line breaks left
once the white space in front of it is dropped. -/
def splitRule? (line : Bytes) : Option (Bytes × Bytes) :=
  let name := line.takeWhile Byte.isWord
  match (line.drop name.length).dropWhile Byte.isSpace with
  | Byte.less :: Byte.minus :: rest =>
    let pattern := rest.dropWhile Byte.isSpace
    if name.isEmpty || pattern.any Byte.isLineEnd then none else some (name, Bytes.trim pattern)
  | _ => none

/-! ### Compilation -/

/-- Computations that log and may refuse a grammar. -/
abbrev Build := ExceptT GrammarError Logged

/-- Adds the rule of a logical line. -/
def addLine (g : Grammar) (line : Bytes) : Build Grammar := do
  match splitRule? line with
  | none =>
    Log.write .warn (Bytes.ascii "Skipping grammar line without '<-': " ++ line)
    return g.addNote (.skippedLine line)
  | some (name, pattern) =>
    match Expr.read pattern with
    | .error e => throw (.inRule name e)
    | .ok e =>
      if e.usesReserved then
        Log.write .warn
          (Bytes.ascii "Rule '" ++ name ++ Bytes.ascii "' uses INDENT/DEDENT, which never match")
        return (g.addNote (.reservedToken name)).add name e
      else return g.add name e

/-- The grammar of a text. -/
def compile (text name : Bytes) : Build Grammar := do
  let g ← (logicalLines text).foldlM addLine { name }
  Log.write .debug
    (Bytes.ascii "Compiled grammar '" ++ g.name ++ Bytes.ascii "' with "
      ++ Bytes.decimal g.rules.size ++ Bytes.ascii " rules")
  return g

/-- The rules of a small language with functions, conditions, loops and expressions. -/
def defaultText : Bytes := Bytes.ascii "
program     <- statement*
statement   <- function_def / if_stmt / while_stmt / for_stmt / return_stmt / assignment / expr_stmt
function_def <- 'def' IDENT '(' param_list? ')' ':' block
param_list  <- IDENT (',' IDENT)*
if_stmt     <- 'if' expr ':' block ('elif' expr ':' block)* ('else' ':' block)?
while_stmt  <- 'while' expr ':' block
for_stmt    <- 'for' IDENT 'in' expr ':' block
return_stmt <- 'return' expr?
assignment  <- IDENT '=' expr
expr_stmt   <- expr
block       <- statement+
expr        <- comparison
comparison  <- addition (('==' / '!=' / '<=' / '>=' / '<' / '>') addition)*
addition    <- multiplication (('+' / '-') multiplication)*
multiplication <- unary (('*' / '/' / '%') unary)*
unary       <- ('-' / '!') unary / call
call        <- primary ('(' arg_list? ')')*
arg_list    <- expr (',' expr)*
primary     <- NUMBER / STRING / IDENT / '(' expr ')' / list_literal
list_literal <- '[' (expr (',' expr)*)? ']'
"

/-- The grammar used where none is given. -/
def default : Build Grammar := compile defaultText (Bytes.ascii "default")

/-- A grammar as a configuration gives it. -/
structure Config where
  name : Bytes := Bytes.ascii "custom"
  start : Bytes := Bytes.ascii "program"
  skipsIgnored : Bool := true
  comments : List Bytes := [Bytes.ascii "//.*"]
  /-- Names and patterns, in the order of declaration. -/
  rules : List (Bytes × Bytes) := []

namespace Config

/-- The rules as a grammar text. -/
def text (c : Config) : Bytes :=
  c.rules.flatMap fun r => r.1 ++ Bytes.ascii " <- " ++ r.2 ++ [Byte.newline]

/-- The grammar of a configuration; without rules it is the default one. -/
def build (c : Config) : Build Grammar := do
  if c.rules.isEmpty then default
  else
    let g ← compile c.text c.name
    let g := { g with chosenStart := some c.start, skipsIgnored := c.skipsIgnored }
    ExceptT.mk (pure (g.withComments c.comments))

end Config

end Grammar

end Packrat
