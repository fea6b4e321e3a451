import Packrat.Expr.Basic

/-!
The text of a parsing expression.

Operands of operators and the items of a choice stand in brackets, a sequence only if it is
labelled. Literals are written in single quotes with escapes for the quote, the backslash and line
breaks.
-/

namespace Packrat

namespace Expr

/-- One byte of a literal, as it is written. -/
def escapeByte (b : UInt8) : Bytes :=
  if b == Byte.backslash then [Byte.backslash, Byte.backslash]
  else if b == Byte.quote then [Byte.backslash, Byte.quote]
  else if b == Byte.newline then [Byte.backslash, 'n'.toUInt8]
  else if b == Byte.tab then [Byte.backslash, 't'.toUInt8]
  else if b == Byte.cr then [Byte.backslash, 'r'.toUInt8]
  else [b]

/-- The inside of a written literal. -/
def escape (text : Bytes) : Bytes := text.flatMap escapeByte

/-- A label as it stands in front of an expression. -/
def labelText : Option Bytes → Bytes
  | none => []
  | some l => Byte.atSign :: l ++ [Byte.colon]

/-- The text of an atom. -/
def atomText : Atom → Bytes
  | .literal text => Byte.quote :: escape text ++ [Byte.quote]
  | .charClass c => Byte.openBracket :: c.source ++ [Byte.closeBracket]
  | .anyByte => [Byte.dot]
  | .rule name => name
  | .token kind => kind.name

/-- A text in parentheses. -/
def inParens (t : Bytes) : Bytes := Byte.openParen :: t ++ [Byte.closeParen]

/-- An operator around the text of its operand. -/
def operatorText : Operator → Bytes → Bytes
  | .star, t => inParens t ++ [Byte.star]
  | .plus, t => inParens t ++ [Byte.plus]
  | .option, t => inParens t ++ [Byte.question]
  | .ahead, t => Byte.ampersand :: inParens t
  | .notAhead, t => Byte.bang :: inParens t

mutual

/-- The text of an expression. -/
def text : Expr → Bytes
  | atom l a => labelText l ++ atomText a
  | apply l op e => labelText l ++ operatorText op (text e)
  | seq none items => Bytes.join [Byte.blank] (texts items)
  | seq (some l) items => labelText (some l) ++ inParens (Bytes.join [Byte.blank] (texts items))
  | choice l items => labelText l ++ inParens (Bytes.join (Bytes.ascii " / ") (texts items))

/-- The texts of several expressions. -/
def texts : List Expr → List Bytes
  | [] => []
  | e :: es => text e :: texts es

end

end Expr

end Packrat
