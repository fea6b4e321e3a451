import Packrat.Grammar.Source
import Packrat.Json.Reader
import Packrat.Path

/-!
Language descriptions.

A language is described by a JSON object with a name and a grammar; the grammar has a name, a start
rule, a flag for white space, comment patterns and rules, all of them at will.  A description
without rules means the default grammar.
-/

namespace Packrat

/-- What can be wrong with the description of a language. -/
inductive ConfigError where
  | unreadable (path : Bytes)
  | invalidJson (path : Bytes)
  | notAnObject
  | grammarNotAnObject
  | commentsNotAList
  | rulesNotAnObject
  | patternNotAString (rule : Bytes)
  /-- A field has a value of the wrong type. -/
  | wrongType
  deriving DecidableEq, Repr

/-- The message for a file that is not there. -/
def unreadableText (path : Bytes) : Bytes := Bytes.ascii "Couldn't open " ++ path

namespace ConfigError

/-- The message of an error. -/
def message : ConfigError → Bytes
  | unreadable path => (unreadableText path).shown
  | invalidJson path => Bytes.ascii "Invalid JSON in " ++ path
  | notAnObject => Bytes.ascii "Language config must be a JSON object"
  | grammarNotAnObject => Bytes.ascii "'grammar' must be an object"
  | commentsNotAList => Bytes.ascii "'comments' must be a list of regular expressions"
  | rulesNotAnObject => Bytes.ascii "'rules' must map rule names to patterns"
  | patternNotAString rule =>
    Bytes.ascii "Pattern of rule '" ++ rule ++ Bytes.ascii "' must be a string"
  | wrongType => Bytes.ascii "Invalid language config"

end ConfigError

/-- A described language. -/
structure Language where
  name : Bytes := Bytes.ascii "unnamed"
  /-- The grammar, if it has rules. -/
  grammar : Option Grammar.Config := none

namespace Language

/-! ### Fields -/

/-- A text, if it is one. -/
def asText : Json → Except ConfigError Bytes
  | .string bs => .ok bs
  | _ => .error .wrongType

/-- A text field with the value it has when it is missing. -/
def textField (j : Json) (key : String) (missing : Bytes) : Except ConfigError Bytes :=
  match j.get? key with
  | none => .ok missing
  | some value => asText value

/-- A flag with the value it has when it is missing. -/
def flagField (j : Json) (key : String) (missing : Bool) : Except ConfigError Bool :=
  match j.get? key with
  | none => .ok missing
  | some (.bool b) => .ok b
  | some _ => .error .wrongType

/-- The comment patterns. -/
def commentField (j : Json) (missing : List Bytes) : Except ConfigError (List Bytes) :=
  match j.get? "comments" with
  | none => .ok missing
  | some (.array items) => items.mapM asText
  | some _ => .error .commentsNotAList

/-- The pattern of a rule. -/
def ruleMember : Bytes × Json → Except ConfigError (Bytes × Bytes)
  | (name, .string pattern) => .ok (name, pattern)
  | (name, _) => .error (.patternNotAString name)

/-- The rules in order. -/
def ruleField (j : Json) : Except ConfigError (List (Bytes × Bytes)) :=
  match j.get? "rules" with
  | none => .ok []
  | some (.object members) => members.mapM ruleMember
  | some _ => .error .rulesNotAnObject

/-! ### Descriptions -/

/-- The grammar that an object describes. -/
def grammarOfJson (j : Json) : Except ConfigError Grammar.Config := do
  let defaults : Grammar.Config := {}
  let name ← textField j "name" defaults.name
  let start ← textField j "start" defaults.start
  let skipsIgnored ← flagField j "skip_whitespace" defaults.skipsIgnored
  let comments ← commentField j defaults.comments
  let rules ← ruleField j
  return { name, start, skipsIgnored, comments, rules }

/-- The grammar of a description, if it has one with rules. -/
def grammarField (j : Json) : Except ConfigError (Option Grammar.Config) :=
  match j.get? "grammar" with
  | none => .ok none
  | some (.object members) => do
    let c ← grammarOfJson (.object members)
    return if c.rules.isEmpty then none else some c
  | some _ => .error .grammarNotAnObject

/-- The language that a JSON value describes. -/
def ofJson : Json → Except ConfigError Language
  | .object members => do
    let defaults : Language := {}
    let name ← textField (.object members) "name" defaults.name
    let grammar ← grammarField (.object members)
    return { name, grammar }
  | _ => .error .notAnObject

/-- The language described in a file. -/
def load (read : Path.Reader) (path : Bytes) : ExceptT ConfigError Logged Language := do
  match read path with
  | none => throw (.unreadable path)
  | some contents =>
    match Json.read? contents with
    | none => throw (.invalidJson path)
    | some j =>
      Log.write .info (Bytes.ascii "Loaded language config " ++ path)
      ExceptT.mk (pure (ofJson j))

/-- The grammar of a language. -/
def build (l : Language) : Grammar.Build Grammar := do
  match l.grammar with
  | some c => c.build
  | none =>
    Log.write .info
      (Bytes.ascii "Language '" ++ l.name
        ++ Bytes.ascii "' has no grammar rules, using the default grammar")
    Grammar.default

end Language

end Packrat
