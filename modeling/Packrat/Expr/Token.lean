import Packrat.Bytes

/-!
The tokens of a written pattern.

`Token.lex` cuts a pattern into tokens and tells at which offset each of them starts.  A fault does
not spoil the tokens in front of it: a reader that stops earlier never learns of it.
-/

namespace Packrat

/-- A token of the pattern language. -/
inductive Token where
  /-- A literal, with the quote it is written in; escapes are still in place. -/
  | quoted (quote : UInt8) (body : Bytes)
  /-- A character class without its brackets. -/
  | bracket (body : Bytes)
  /-- A label without its marks. -/
  | label (name : Bytes)
  | word (name : Bytes)
  | mark (b : UInt8)
  deriving DecidableEq, Repr

/-- What can be wrong with a written pattern. -/
inductive PatternError where
  | invalidByte (b : UInt8)
  | unterminatedLiteral
  | unterminatedClass
  | malformedLabel
  /-- The text in brackets is no character class. -/
  | invalidClass (source : Bytes)
  | missingBracket
  | expectedBracket (found : Token)
  /-- No expression stands behind an operator. -/
  | missingOperand (operator : UInt8)
  | unexpected (found : Token)
  | leftOver (found : Token) (offset : Nat)
  deriving DecidableEq, Repr

namespace Token

/-- The token as it is written. -/
def spelling : Token → Bytes
  | quoted quote body => quote :: body ++ [quote]
  | bracket body => Byte.openBracket :: body ++ [Byte.closeBracket]
  | label name => Byte.atSign :: name ++ [Byte.colon]
  | word name => name
  | mark b => [b]

/-- Cuts off everything up to a closing byte that no backslash protects. -/
def delimited (closing : UInt8) : Bytes → Option (Bytes × Bytes)
  | [] => none
  | Byte.backslash :: b :: bs =>
    (delimited closing bs).map fun r => (Byte.backslash :: b :: r.1, r.2)
  | b :: bs =>
    if b == closing then some ([], bs)
    else (delimited closing bs).map fun r => (b :: r.1, r.2)

/-- The bytes that are tokens of their own. -/
def isMark (b : UInt8) : Bool := (Bytes.ascii "+*)(/?!&.").contains b

/-- Cuts the first token off a text that starts with `b`. -/
def next (b : UInt8) (bs : Bytes) : Except PatternError (Token × Bytes) :=
  if b == Byte.quote || b == Byte.doubleQuote then
    match delimited b bs with
    | some (body, rest) => .ok (quoted b body, rest)
    | none => .error .unterminatedLiteral
  else if b == Byte.openBracket then
    match delimited Byte.closeBracket bs with
    | some (body, rest) => .ok (bracket body, rest)
    | none => .error .unterminatedClass
  else if b == Byte.atSign then
    let name := bs.takeWhile Byte.isWord
    match bs.drop name.length with
    | Byte.colon :: rest => if name.isEmpty then .error .malformedLabel else .ok (label name, rest)
    | _ => .error .malformedLabel
  else if isMark b then .ok (mark b, bs)
  else if Byte.isWord b then
    let name := bs.takeWhile Byte.isWord
    .ok (word (b :: name), bs.drop name.length)
  else .error (.invalidByte b)

end Token

/-- The tokens of a pattern with their offsets, and the fault that ended them, if any. -/
structure Lexed where
  tokens : List (Token × Nat)
  fault : Option PatternError
  deriving DecidableEq, Repr

namespace Token

/-- Cuts at most `fuel` tokens off a text that starts at offset `o`. -/
def lexFrom : (fuel : Nat) → (o : Nat) → Bytes → Lexed
  | 0, _, _ => ⟨[], none⟩
  | fuel + 1, o, bs =>
    let gap := bs.takeWhile Byte.isBlank
    match bs.drop gap.length with
    | [] => ⟨[], none⟩
    | b :: rest =>
      let o := o + gap.length
      match next b rest with
      | .error fault => ⟨[], some fault⟩
      | .ok (token, rest) =>
        let lexed := lexFrom fuel (o + token.spelling.length) rest
        { lexed with tokens := (token, o) :: lexed.tokens }

/-- The tokens of a pattern; every token takes at least one byte. -/
def lex (bs : Bytes) : Lexed := lexFrom (bs.length + 1) 0 bs

end Token

namespace PatternError

/-- The message of an error. -/
def message : PatternError → Bytes
  | invalidByte b => Bytes.ascii "Invalid input char: '" ++ b :: Bytes.ascii "'"
  | unterminatedLiteral => Bytes.ascii "Unterminated string in expression"
  | unterminatedClass => Bytes.ascii "Unterminated character class in expression"
  | malformedLabel => Bytes.ascii "Malformed capture label, expected '@name:'"
  | invalidClass source => Bytes.ascii "Invalid character class [" ++ source ++ Bytes.ascii "]"
  | missingBracket => Bytes.ascii "Missing closing bracket"
  | expectedBracket t =>
    Bytes.ascii "Expected closing bracket, not '" ++ t.spelling ++ [Byte.quote]
  | missingOperand op => Bytes.ascii "Expected an expression after '" ++ op :: Bytes.ascii "'"
  | unexpected t => Bytes.ascii "Unexpected '" ++ t.spelling ++ Bytes.ascii "'"
  | leftOver t o =>
    Bytes.ascii "Unexpected '" ++ t.spelling ++ Bytes.ascii "' at offset " ++ Bytes.decimal o

end PatternError

end Packrat
