import Packrat.Json.Basic

/-!
JSON texts with one member or item to a line, indented by two blanks a level.

Strings are bytes and written as they are, but for the quote, the backslash and control characters.
-/

namespace Packrat

namespace Json

/-- The letter of the escape of a byte, if it has one. -/
def escapeLetter? (b : UInt8) : Option UInt8 :=
  [(Byte.doubleQuote, Byte.doubleQuote), (Byte.backslash, Byte.backslash),
    (Byte.backspace, 'b'.toUInt8), (Byte.formFeed, 'f'.toUInt8), (Byte.newline, 'n'.toUInt8),
    (Byte.cr, 'r'.toUInt8), (Byte.tab, 't'.toUInt8)].lookup b

/-- A hexadecimal digit. -/
def hexDigit (n : Nat) : UInt8 := UInt8.ofNat (if n < 10 then 48 + n else 87 + n)

/-- One byte of a string, as it is written. -/
def escapeByte (b : UInt8) : Bytes :=
  match escapeLetter? b with
  | some letter => [Byte.backslash, letter]
  | none =>
    if b < Byte.blank then
      Bytes.ascii "\\u00" ++ [hexDigit (b.toNat / 16), hexDigit (b.toNat % 16)]
    else [b]

/-- A string in quotes. -/
def quote (bs : Bytes) : Bytes := Byte.doubleQuote :: bs.flatMap escapeByte ++ [Byte.doubleQuote]

/-- The beginning of a line at a level. -/
def indent (level : Nat) : Bytes := Byte.newline :: List.replicate (2 * level) Byte.blank

/-- Texts between brackets, one to a line. -/
def block (opening closing : UInt8) (level : Nat) (texts : List Bytes) : Bytes :=
  if texts.isEmpty then [opening, closing]
  else
    let line := indent (level + 1)
    opening :: line ++ Bytes.join (Byte.comma :: line) texts ++ indent level ++ [closing]

mutual

/-- The text of a value that begins at a level. -/
def print (level : Nat) : Json → Bytes
  | null => Bytes.ascii "null"
  | bool b => Bytes.ascii (if b then "true" else "false")
  | number written => written
  | string bs => quote bs
  | array items => block Byte.openBracket Byte.closeBracket level (printItems (level + 1) items)
  | object members => block Byte.openBrace Byte.closeBrace level (printMembers (level + 1) members)

def printItems (level : Nat) : List Json → List Bytes
  | [] => []
  | j :: js => print level j :: printItems level js

def printMembers (level : Nat) : List (Bytes × Json) → List Bytes
  | [] => []
  | (key, j) :: ms =>
    (quote key ++ Byte.colon :: Byte.blank :: print level j) :: printMembers level ms

end

end Json

end Packrat
