import Packrat.Regex.Match
import Packrat.Regex.Reader

/-!
Parsing expressions.

An expression is an atom, an operator applied to an expression, a sequence or an ordered choice;
each of them can carry a label.  A character class keeps the text it was written as, together with
the regular expression of that text in brackets, so that classes with the same text are the same
class.
-/

namespace Packrat

/-! ### Tokens of the source text -/

/-- The kinds of tokens that a pattern can ask for by name. -/
inductive TokenKind where
  | number | string | ident | newline | endOfInput | indent | dedent
  deriving DecidableEq, Repr

namespace TokenKind

def name : TokenKind → Bytes
  | number => Bytes.ascii "NUMBER"
  | string => Bytes.ascii "STRING"
  | ident => Bytes.ascii "IDENT"
  | newline => Bytes.ascii "NEWLINE"
  | endOfInput => Bytes.ascii "EOF"
  | indent => Bytes.ascii "INDENT"
  | dedent => Bytes.ascii "DEDENT"

def all : List TokenKind := [number, string, ident, newline, endOfInput, indent, dedent]

def ofName? (bs : Bytes) : Option TokenKind := all.find? (·.name == bs)

/-- The kinds that are reserved and never match. -/
def isReserved : TokenKind → Bool
  | indent | dedent => true
  | _ => false

/-- The position among all kinds. -/
def index : TokenKind → Nat
  | number => 0
  | string => 1
  | ident => 2
  | newline => 3
  | endOfInput => 4
  | indent => 5
  | dedent => 6

end TokenKind

/-! ### Character classes -/

/-- A character class: the text between its brackets, and what it means. -/
structure CharClass where
  source : Bytes
  regex : Regex
  regex_eq : Regex.read? (Byte.openBracket :: source ++ [Byte.closeBracket]) = some regex

namespace CharClass

/-- The class of a text, if the text in brackets is a regular expression. -/
def ofSource? (source : Bytes) : Option CharClass :=
  match h : Regex.read? (Byte.openBracket :: source ++ [Byte.closeBracket]) with
  | some regex => some ⟨source, regex, h⟩
  | none => none

/-- A class is determined by its text. -/
theorem ext_source {c d : CharClass} (h : c.source = d.source) : c = d := by
  obtain ⟨s, r, hr⟩ := c
  obtain ⟨s', r', hr'⟩ := d
  obtain rfl : s = s' := h
  obtain rfl : r = r' := Option.some.inj (hr.symm.trans hr')
  rfl

instance : DecidableEq CharClass := fun c d =>
  if h : c.source = d.source then isTrue (ext_source h)
  else isFalse fun e => h (congrArg source e)

/-- Whether a byte belongs to the class: the expression has to match it and nothing else. -/
def accepts (c : CharClass) (b : UInt8) : Bool := c.regex.matchesByte b

end CharClass

/-! ### Expressions -/

/-- An expression without parts. -/
inductive Atom where
  | literal (text : Bytes)
  | charClass (c : CharClass)
  | anyByte
  | rule (name : Bytes)
  | token (kind : TokenKind)
  deriving DecidableEq

/-- What can be applied to an expression. -/
inductive Operator where
  | star | plus | option
  /-- Looks ahead without consuming anything. -/
  | ahead
  /-- Succeeds where the expression fails, without consuming anything. -/
  | notAhead
  deriving DecidableEq, Repr

/-- A parsing expression. -/
inductive Expr where
  | atom (label : Option Bytes) (a : Atom)
  | apply (label : Option Bytes) (op : Operator) (e : Expr)
  | seq (label : Option Bytes) (items : List Expr)
  | choice (label : Option Bytes) (items : List Expr)

namespace Expr

def label : Expr → Option Bytes
  | atom l _ | apply l _ _ | seq l _ | choice l _ => l

/-- Sets the label, in place of any earlier one. -/
def withLabel (l : Bytes) : Expr → Expr
  | atom _ a => atom (some l) a
  | apply _ op e => apply (some l) op e
  | seq _ items => seq (some l) items
  | choice _ items => choice (some l) items

def children : Expr → List Expr
  | atom _ _ => []
  | apply _ _ e => [e]
  | seq _ items | choice _ items => items

def literal (text : Bytes) : Expr := atom none (.literal text)

/-- A sequence; a single item stands for itself. -/
def sequence : List Expr → Expr
  | [e] => e
  | items => seq none items

/-- An ordered choice; a single item stands for itself. -/
def alternatives : List Expr → Expr
  | [e] => e
  | items => choice none items

/-- The name of the kind of an expression. -/
def kind : Expr → Bytes
  | atom _ (.literal _) => Bytes.ascii "LITERAL"
  | atom _ (.charClass _) => Bytes.ascii "CHAR_CLASS"
  | atom _ .anyByte => Bytes.ascii "ANY_CHAR"
  | atom _ (.rule _) => Bytes.ascii "RULE_REF"
  | atom _ (.token _) => Bytes.ascii "TOKEN_REF"
  | apply _ .star _ => Bytes.ascii "ZERO_OR_MORE"
  | apply _ .plus _ => Bytes.ascii "ONE_OR_MORE"
  | apply _ .option _ => Bytes.ascii "OPTIONAL"
  | apply _ .ahead _ => Bytes.ascii "AND_PREDICATE"
  | apply _ .notAhead _ => Bytes.ascii "NOT_PREDICATE"
  | seq _ _ => Bytes.ascii "SEQUENCE"
  | choice _ _ => Bytes.ascii "CHOICE"

/-! ### What an expression refers to -/

mutual

/-- The rules that an expression may invoke before it consumes anything: those of the first item of
a sequence and of every item of a choice. -/
def leading : Expr → List Bytes
  | atom _ (.rule name) => [name]
  | atom _ _ => []
  | apply _ _ e => leading e
  | seq _ [] => []
  | seq _ (e :: _) => leading e
  | choice _ items => leadingAll items

def leadingAll : List Expr → List Bytes
  | [] => []
  | e :: es => leading e ++ leadingAll es

end

mutual

/-- The rules that an expression refers to anywhere, in the order in which they are written. -/
def references : Expr → List Bytes
  | atom _ (.rule name) => [name]
  | atom _ _ => []
  | apply _ _ e => references e
  | seq _ items | choice _ items => referencesAll items

def referencesAll : List Expr → List Bytes
  | [] => []
  | e :: es => references e ++ referencesAll es

end

mutual

/-- Whether a reserved token is asked for anywhere. -/
def usesReserved : Expr → Bool
  | atom _ (.token kind) => kind.isReserved
  | atom _ _ => false
  | apply _ _ e => usesReserved e
  | seq _ items | choice _ items => anyUsesReserved items

def anyUsesReserved : List Expr → Bool
  | [] => false
  | e :: es => usesReserved e || anyUsesReserved es

end

end Expr

end Packrat
