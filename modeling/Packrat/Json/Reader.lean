import Packrat.Json.Basic

/-!
Reading JSON texts strictly.

Only what the standard allows is accepted: no comments, no trailing commas, no control characters in
strings, no superfluous zeros.  A key that occurs again replaces the value and keeps the
place.  Strings are bytes: an escape gives the UTF-8 form of its character, and two escapes of
surrogates give one character together.
-/

namespace Packrat

namespace Json

/-- Drops white space. -/
def skipBlanks (bs : Bytes) : Bytes := bs.dropWhile Byte.isBlank

/-! ### Strings -/

/-- The UTF-8 form of a code point. -/
def utf8 (c : Nat) : Bytes :=
  let tail (c : Nat) : UInt8 := UInt8.ofNat (0x80 + c % 64)
  if c < 0x80 then [UInt8.ofNat c]
  else if c < 0x800 then [UInt8.ofNat (0xc0 + c / 64), tail c]
  else if c < 0x10000 then [UInt8.ofNat (0xe0 + c / 64 / 64), tail (c / 64), tail c]
  else [UInt8.ofNat (0xf0 + c / 64 / 64 / 64), tail (c / 64 / 64), tail (c / 64), tail c]

/-- The value of four hexadecimal digits. -/
def hex4? : Bytes → Option (Nat × Bytes)
  | a :: b :: c :: d :: rest =>
    if [a, b, c, d].all Byte.isHexDigit then
      some ([a, b, c, d].foldl (fun v d => 16 * v + Byte.hexValue d) 0, rest)
    else none
  | _ => none

def isHighSurrogate (c : Nat) : Bool := 0xd800 ≤ c && c < 0xdc00

def isLowSurrogate (c : Nat) : Bool := 0xdc00 ≤ c && c < 0xe000

/-- The character of an escape by number, and the rest; a surrogate needs its partner. -/
def codePoint? (bs : Bytes) : Option (Nat × Bytes) := do
  let (high, rest) ← hex4? bs
  if isLowSurrogate high then none
  else if isHighSurrogate high then
    match rest with
    | Byte.backslash :: letter :: rest =>
      let (low, rest) ← if letter == 'u'.toUInt8 then hex4? rest else none
      if isLowSurrogate low then
        some (0x10000 + (high - 0xd800) * 0x400 + (low - 0xdc00), rest)
      else none
    | _ => none
  else some (high, rest)

/-- The byte of an escape by letter. -/
def simpleEscape? (b : UInt8) : Option UInt8 :=
  [(Byte.doubleQuote, Byte.doubleQuote), (Byte.backslash, Byte.backslash), (Byte.slash, Byte.slash),
    ('b'.toUInt8, Byte.backspace), ('f'.toUInt8, Byte.formFeed), ('n'.toUInt8, Byte.newline),
    ('r'.toUInt8, Byte.cr), ('t'.toUInt8, Byte.tab)].lookup b

/-- The bytes of an escape that begins with the given letter, and the rest. -/
def escape? (letter : UInt8) (bs : Bytes) : Option (Bytes × Bytes) :=
  if letter == 'u'.toUInt8 then (codePoint? bs).map fun r => (utf8 r.1, r.2)
  else (simpleEscape? letter).map fun c => ([c], bs)

/-- Reads a string behind its opening quote; at most `fuel` characters. -/
def stringBody? : (fuel : Nat) → Bytes → Option (Bytes × Bytes)
  | 0, _ => none
  | _ + 1, [] => none
  | _ + 1, Byte.doubleQuote :: rest => some ([], rest)
  | fuel + 1, Byte.backslash :: letter :: rest => do
    let (c, rest) ← escape? letter rest
    let (bs, rest) ← stringBody? fuel rest
    return (c ++ bs, rest)
  | fuel + 1, b :: rest =>
    if b < Byte.blank || b == Byte.backslash then none
    else do
      let (bs, rest) ← stringBody? fuel rest
      return (b :: bs, rest)

/-- Reads a string behind its opening quote. -/
def string? (bs : Bytes) : Option (Bytes × Bytes) := stringBody? (bs.length + 1) bs

/-! ### Numbers -/

/-- A run of digits that must not be empty. -/
def digits? (bs : Bytes) : Option (Bytes × Bytes) :=
  let digits := bs.takeWhile Byte.isDigit
  if digits.isEmpty then none else some (digits, bs.drop digits.length)

/-- The part in front of the fraction: zero, or digits that do not begin with it. -/
def whole? : Bytes → Option (Bytes × Bytes)
  | Byte.zero :: rest => some ([Byte.zero], rest)
  | bs => digits? bs

/-- A fraction, if there is one. -/
def fraction? : Bytes → Option (Bytes × Bytes)
  | Byte.dot :: rest => (digits? rest).map fun r => (Byte.dot :: r.1, r.2)
  | bs => some ([], bs)

/-- An exponent, if there is one. -/
def exponent? : Bytes → Option (Bytes × Bytes)
  | [] => some ([], [])
  | b :: rest =>
    if b == 'e'.toUInt8 || b == 'E'.toUInt8 then
      match rest with
      | Byte.plus :: rest => (digits? rest).map fun r => (b :: Byte.plus :: r.1, r.2)
      | Byte.minus :: rest => (digits? rest).map fun r => (b :: Byte.minus :: r.1, r.2)
      | rest => (digits? rest).map fun r => (b :: r.1, r.2)
    else some ([], b :: rest)

/-- A sign, if there is one. -/
def sign : Bytes → Bytes × Bytes
  | Byte.minus :: rest => ([Byte.minus], rest)
  | bs => ([], bs)

/-- Reads a number. -/
def number? (bs : Bytes) : Option (Json × Bytes) := do
  let (minus, rest) := sign bs
  let (whole, rest) ← whole? rest
  let (fraction, rest) ← fraction? rest
  let (exponent, rest) ← exponent? rest
  return (number (minus ++ whole ++ fraction ++ exponent), rest)

/-! ### Values -/

/-- Reads a fixed word. -/
def word? (word : String) (value : Json) (bs : Bytes) : Option (Json × Bytes) :=
  if (Bytes.ascii word).isPrefixOf bs then some (value, bs.drop (Bytes.ascii word).length) else none

mutual

/-- Reads a value; `fuel` bounds the calls inside of each other. -/
def value? : (fuel : Nat) → Bytes → Option (Json × Bytes)
  | 0, _ => none
  | fuel + 1, bs =>
    match skipBlanks bs with
    | Byte.openBrace :: rest =>
      match skipBlanks rest with
      | Byte.closeBrace :: rest => some (object [], rest)
      | rest => members? fuel [] rest
    | Byte.openBracket :: rest =>
      match skipBlanks rest with
      | Byte.closeBracket :: rest => some (array [], rest)
      | rest => items? fuel rest
    | Byte.doubleQuote :: rest => (string? rest).map fun r => (string r.1, r.2)
    | bs => word? "null" null bs <|> word? "true" (bool true) bs <|> word? "false" (bool false) bs
        <|> number? bs

/-- Reads the members of an object that has some, and its end. -/
def members? : (fuel : Nat) → List (Bytes × Json) → Bytes → Option (Json × Bytes)
  | 0, _, _ => none
  | fuel + 1, members, bs =>
    match skipBlanks bs with
    | Byte.doubleQuote :: rest => do
      let (key, rest) ← string? rest
      match skipBlanks rest with
      | Byte.colon :: rest =>
        let (value, rest) ← value? fuel rest
        let members := setMember members key value
        match skipBlanks rest with
        | Byte.comma :: rest => members? fuel members rest
        | Byte.closeBrace :: rest => some (object members, rest)
        | _ => none
      | _ => none
    | _ => none

/-- Reads the items of an array that has some, and its end. -/
def items? : (fuel : Nat) → Bytes → Option (Json × Bytes)
  | 0, _ => none
  | fuel + 1, bs => do
    let (item, rest) ← value? fuel bs
    match skipBlanks rest with
    | Byte.comma :: rest =>
      match ← items? fuel rest with
      | (array items, rest) => some (array (item :: items), rest)
      | _ => none
    | Byte.closeBracket :: rest => some (array [item], rest)
    | _ => none

end

/-- Reads a whole text.  Every call inside another one has a byte less to read, or one step less to
go. -/
def read? (bs : Bytes) : Option Json := do
  let (value, rest) ← value? (2 * bs.length + 2) bs
  if (skipBlanks rest).isEmpty then some value else none

end Json

end Packrat
