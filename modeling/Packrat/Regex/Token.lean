import Packrat.Bytes

/-!
The tokens of a written regular expression.

The lexer is in one of three modes: outside of brackets, inside a bracket `[…]`, and inside a
counted repetition `{…}`.  Which mode follows depends on the tokens alone, so the whole text is cut
into tokens before anything is read from them; `none` means that the text is no regular expression.
-/

namespace Packrat

namespace Regex

/-- A token of a written regular expression. -/
inductive Token where
  /-- A byte that stands for itself, written as it is or by an escape. -/
  | literal (b : UInt8)
  | dot | caret | dollar | star | plus | question | bar
  | openGroup | openPlain | openLook (positive : Bool) | close
  | openBracket (negated : Bool) | closeBracket | dash
  /-- `[.name.]`, `[:name:]` and `[=name=]`. -/
  | collating (name : Bytes) | className (name : Bytes) | equivalence (name : Bytes)
  /-- One of the letters of `\d \D \s \S \w \W`. -/
  | classEscape (letter : UInt8)
  | wordEdge (between : Bool)
  | backref (n : Nat)
  | openBrace | count (n : Nat) | comma | closeBrace
  deriving DecidableEq, Repr

namespace Token

/-- What the lexer is inside of. -/
inductive Mode where
  | outside | bracket | brace
  deriving DecidableEq

/-- The bytes that the letters of the simple escapes stand for. -/
def controlEscape? (letter : UInt8) : Option UInt8 :=
  [(Byte.zero, 0), ('b'.toUInt8, Byte.backspace), ('f'.toUInt8, Byte.formFeed),
    ('n'.toUInt8, Byte.newline), ('r'.toUInt8, Byte.cr), ('t'.toUInt8, Byte.tab),
    ('v'.toUInt8, Byte.verticalTab)].lookup letter

/-- The value of exactly `n` hexadecimal digits, and the rest. -/
def hex? (n : Nat) (bs : Bytes) : Option (Nat × Bytes) :=
  let digits := bs.take n
  if digits.length == n && digits.all Byte.isHexDigit then
    some (digits.foldl (fun v d => 16 * v + Byte.hexValue d) 0, bs.drop n)
  else none

/-- Reads what follows a backslash. -/
def escape? (mode : Mode) : Bytes → Option (Token × Bytes)
  | [] => none
  | b :: bs =>
    match controlEscape? b with
    | some c =>
      if b == 'b'.toUInt8 && mode != .bracket then some (wordEdge true, bs)
      else some (literal c, bs)
    | none =>
      if b == 'B'.toUInt8 then some (wordEdge false, bs)
      else if (Bytes.ascii "dDsSwW").contains b then some (classEscape b, bs)
      else if b == 'c'.toUInt8 then
        match bs with
        | [] => none
        | c :: rest => some (literal c, rest)
      else if b == 'x'.toUInt8 then (hex? 2 bs).map fun r => (literal (UInt8.ofNat r.1), r.2)
      else if b == 'u'.toUInt8 then (hex? 4 bs).map fun r => (literal (UInt8.ofNat r.1), r.2)
      else if Byte.isDigit b then
        let digits := bs.takeWhile Byte.isDigit
        some (backref (Bytes.digitsValue (b :: digits)), bs.drop digits.length)
      else some (literal b, bs)

/-- Reads the name in front of `mark` and a closing bracket. -/
def named? (mark : UInt8) (bs : Bytes) : Option (Bytes × Bytes) :=
  let name := bs.takeWhile (· != mark)
  match bs.drop name.length with
  | _ :: Byte.closeBracket :: rest => some (name, rest)
  | _ => none

/-- Reads one token outside of brackets. -/
def outside? : Bytes → Option (Token × Mode × Bytes)
  | [] => none
  | Byte.backslash :: bs => (escape? .outside bs).map fun r => (r.1, .outside, r.2)
  | Byte.openParen :: Byte.question :: Byte.colon :: bs => some (openPlain, .outside, bs)
  | Byte.openParen :: Byte.question :: Byte.equals :: bs => some (openLook true, .outside, bs)
  | Byte.openParen :: Byte.question :: Byte.bang :: bs => some (openLook false, .outside, bs)
  | Byte.openParen :: Byte.question :: _ => none
  | Byte.openParen :: bs => some (openGroup, .outside, bs)
  | Byte.closeParen :: bs => some (close, .outside, bs)
  | Byte.openBracket :: Byte.caret :: bs => some (openBracket true, .bracket, bs)
  | Byte.openBracket :: bs => some (openBracket false, .bracket, bs)
  | Byte.openBrace :: bs => some (openBrace, .brace, bs)
  | Byte.dot :: bs => some (dot, .outside, bs)
  | Byte.caret :: bs => some (caret, .outside, bs)
  | Byte.dollar :: bs => some (dollar, .outside, bs)
  | Byte.star :: bs => some (star, .outside, bs)
  | Byte.plus :: bs => some (plus, .outside, bs)
  | Byte.question :: bs => some (question, .outside, bs)
  | Byte.bar :: bs => some (bar, .outside, bs)
  | b :: bs => some (literal b, .outside, bs)

/-- Reads one token inside a bracket. -/
def bracket? : Bytes → Option (Token × Mode × Bytes)
  | [] => none
  | Byte.minus :: bs => some (dash, .bracket, bs)
  | Byte.openBracket :: Byte.dot :: bs =>
    (named? Byte.dot bs).map fun r => (collating r.1, .bracket, r.2)
  | Byte.openBracket :: Byte.colon :: bs =>
    (named? Byte.colon bs).map fun r => (className r.1, .bracket, r.2)
  | Byte.openBracket :: Byte.equals :: bs =>
    (named? Byte.equals bs).map fun r => (equivalence r.1, .bracket, r.2)
  | Byte.closeBracket :: bs => some (closeBracket, .outside, bs)
  | Byte.backslash :: bs => (escape? .bracket bs).map fun r => (r.1, .bracket, r.2)
  | b :: bs => some (literal b, .bracket, bs)

/-- Reads one token inside a counted repetition. -/
def brace? : Bytes → Option (Token × Mode × Bytes)
  | [] => none
  | Byte.comma :: bs => some (comma, .brace, bs)
  | Byte.closeBrace :: bs => some (closeBrace, .outside, bs)
  | b :: bs =>
    if Byte.isDigit b then
      let digits := bs.takeWhile Byte.isDigit
      some (count (Bytes.digitsValue (b :: digits)), .brace, bs.drop digits.length)
    else none

/-- Reads one token in the given mode. -/
def next? : Mode → Bytes → Option (Token × Mode × Bytes)
  | .outside => outside?
  | .bracket => bracket?
  | .brace => brace?

/-- Cuts at most `fuel` tokens off. -/
def lexFrom : (fuel : Nat) → Mode → Bytes → Option (List Token)
  | _, _, [] => some []
  | 0, _, _ :: _ => none
  | fuel + 1, mode, b :: bs => do
    let (token, mode, rest) ← next? mode (b :: bs)
    let tokens ← lexFrom fuel mode rest
    return token :: tokens

/-- The tokens of a text; every token takes at least one byte. -/
def lex? (bs : Bytes) : Option (List Token) := lexFrom bs.length .outside bs

end Token

end Regex

end Packrat
