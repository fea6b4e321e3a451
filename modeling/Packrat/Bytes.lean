/-!
Byte strings and the byte classes that every later module shares.

All text here is a sequence of bytes: names, patterns and messages are lists (`Bytes`), source texts
are arrays (`Text`), and every offset, length and column counts bytes.  The classes (`isAlpha`,
`isSpace`, …) are those of ASCII; a byte above 127 belongs to none of them.

Source texts are looked at through four operations: `Text.scanWhile` runs over a class,
`Text.startsAt` compares with a byte string, `Text.find?` searches for one, and `Text.slice` cuts
a stretch out.  Each of them is total and treats an offset behind the end like the end.
-/

namespace Packrat

/-- A byte string. -/
abbrev Bytes := List UInt8

/-- A source text, indexed by byte offset. -/
abbrev Text := Array UInt8

/-! ### Byte classes -/

namespace Byte

/-! Names for the bytes that patterns, grammars and language files are written with. -/

@[match_pattern] abbrev backspace : UInt8 := 8
@[match_pattern] abbrev tab : UInt8 := 9
@[match_pattern] abbrev newline : UInt8 := 10
@[match_pattern] abbrev verticalTab : UInt8 := 11
@[match_pattern] abbrev formFeed : UInt8 := 12
@[match_pattern] abbrev cr : UInt8 := 13
@[match_pattern] abbrev blank : UInt8 := 32
@[match_pattern] abbrev bang : UInt8 := 33
@[match_pattern] abbrev doubleQuote : UInt8 := 34
@[match_pattern] abbrev hash : UInt8 := 35
@[match_pattern] abbrev dollar : UInt8 := 36
@[match_pattern] abbrev ampersand : UInt8 := 38
@[match_pattern] abbrev quote : UInt8 := 39
@[match_pattern] abbrev openParen : UInt8 := 40
@[match_pattern] abbrev closeParen : UInt8 := 41
@[match_pattern] abbrev star : UInt8 := 42
@[match_pattern] abbrev plus : UInt8 := 43
@[match_pattern] abbrev comma : UInt8 := 44
@[match_pattern] abbrev minus : UInt8 := 45
@[match_pattern] abbrev dot : UInt8 := 46
@[match_pattern] abbrev slash : UInt8 := 47
@[match_pattern] abbrev zero : UInt8 := 48
@[match_pattern] abbrev colon : UInt8 := 58
@[match_pattern] abbrev less : UInt8 := 60
@[match_pattern] abbrev equals : UInt8 := 61
@[match_pattern] abbrev question : UInt8 := 63
@[match_pattern] abbrev atSign : UInt8 := 64
@[match_pattern] abbrev openBracket : UInt8 := 91
@[match_pattern] abbrev backslash : UInt8 := 92
@[match_pattern] abbrev closeBracket : UInt8 := 93
@[match_pattern] abbrev caret : UInt8 := 94
@[match_pattern] abbrev underscore : UInt8 := 95
@[match_pattern] abbrev openBrace : UInt8 := 123
@[match_pattern] abbrev bar : UInt8 := 124
@[match_pattern] abbrev closeBrace : UInt8 := 125

def isDigit (b : UInt8) : Bool := 48 ≤ b && b ≤ 57

def isUpper (b : UInt8) : Bool := 65 ≤ b && b ≤ 90

def isLower (b : UInt8) : Bool := 97 ≤ b && b ≤ 122

def isAlpha (b : UInt8) : Bool := isUpper b || isLower b

def isAlnum (b : UInt8) : Bool := isAlpha b || isDigit b

/-- Tab, newline, vertical tab, form feed, carriage return and blank. -/
def isSpace (b : UInt8) : Bool := (tab ≤ b && b ≤ cr) || b == blank

/-- The bytes that continue an identifier or keyword. -/
def isWord (b : UInt8) : Bool := isAlnum b || b == underscore

/-- The white space that separates words of a pattern or a source: blank, tab, return, newline. -/
def isBlank (b : UInt8) : Bool := b == blank || b == tab || b == cr || b == newline

/-- A byte that ends a line. -/
def isLineEnd (b : UInt8) : Bool := b == cr || b == newline

def isHexDigit (b : UInt8) : Bool := isDigit b || (65 ≤ b && b ≤ 70) || (97 ≤ b && b ≤ 102)

/-- The value of a hexadecimal digit; other bytes have no use for it. -/
def hexValue (b : UInt8) : Nat :=
  if isDigit b then b.toNat - 48
  else if isUpper b then b.toNat - 55
  else b.toNat - 87

def toLower (b : UInt8) : UInt8 := if isUpper b then b + 32 else b

end Byte

/-! ### Byte strings -/

namespace Bytes

/-- The bytes of a text of characters below 256. -/
def ascii (s : String) : Bytes := s.toList.map fun c => UInt8.ofNat c.toNat

/-- A number in decimal digits. -/
def decimal (n : Nat) : Bytes := (Nat.toDigits 10 n).map fun c => UInt8.ofNat c.toNat

/-- An integer in decimal digits, with a minus sign where it needs one. -/
def decimalInt : Int → Bytes
  | .ofNat n => decimal n
  | .negSucc n => Byte.minus :: decimal (n + 1)

/-- The value of a run of decimal digits. -/
def digitsValue (ds : Bytes) : Nat := ds.foldl (fun n d => 10 * n + (d.toNat - 48)) 0

/-- Drops white space at both ends. -/
def trim (bs : Bytes) : Bytes :=
  ((bs.dropWhile Byte.isBlank).reverse.dropWhile Byte.isBlank).reverse

/-- What a message shows: everything in front of the first zero byte. -/
def shown (bs : Bytes) : Bytes := bs.takeWhile (· != 0)

/-- Whether `pattern` stands somewhere inside. -/
def occurs (pattern : Bytes) : Bytes → Bool
  | [] => pattern.isEmpty
  | b :: bs => pattern.isPrefixOf (b :: bs) || occurs pattern bs

/-- The lines of a text; a final newline does not open one more line. -/
def lines (bs : Bytes) : List Bytes := go [] bs
where
  go (line : Bytes) : Bytes → List Bytes
    | [] => if line.isEmpty then [] else [line.reverse]
    | b :: bs => if b == Byte.newline then line.reverse :: go [] bs else go (b :: line) bs

/-- Joins with a separator between neighbours. -/
def join (separator : Bytes) : List Bytes → Bytes
  | [] => []
  | [b] => b
  | b :: bs => b ++ separator ++ join separator bs

/-- Order by bytes, a shorter string before its extensions. -/
def le : Bytes → Bytes → Bool
  | [], _ => true
  | _ :: _, [] => false
  | a :: as, b :: bs => a < b || (a == b && le as bs)

end Bytes

/-! ### Source texts -/

namespace Text

/-- The first offset from `o` on that is the end or holds a byte outside the class. -/
def scanWhile (t : Text) (inside : UInt8 → Bool) (o : Nat) : Nat :=
  if h : o < t.size then
    if inside t[o] then scanWhile t inside (o + 1) else o
  else o
termination_by t.size - o

/-- Whether the bytes from `o` on begin with `pattern`. -/
def startsAt (t : Text) : Bytes → Nat → Bool
  | [], _ => true
  | b :: bs, o => t[o]? == some b && startsAt t bs (o + 1)

/-- The first of the `count` offsets from `o` on at which `pattern` stands. -/
def findWithin (t : Text) (pattern : Bytes) : (count o : Nat) → Option Nat
  | 0, _ => none
  | count + 1, o => if startsAt t pattern o then some o else findWithin t pattern count (o + 1)

/-- The first offset at which `pattern` stands inside `[start, stop)`. -/
def find? (t : Text) (pattern : Bytes) (start stop : Nat) : Option Nat :=
  findWithin t pattern (stop + 1 - start - pattern.length) start

/-- The bytes of `[start, stop)`, as far as they exist. -/
def slice (t : Text) (start stop : Nat) : Bytes := (t.extract start stop).toList

/-- Replaces the bytes of `[offset, offset + oldLength)`. -/
def splice (t : Text) (offset oldLength : Nat) (newText : Bytes) : Text :=
  t.extract 0 offset ++ newText.toArray ++ t.extract (offset + oldLength) t.size

end Text

end Packrat
