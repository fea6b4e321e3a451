import Packrat.Expr.Basic
import Packrat.Expr.Token

/-!
Reading a pattern.

The grammar of patterns is

    choice    <- sequence ('/' sequence)*
    sequence  <- item*
    item      <- ('!' / '&') repeated / label item / repeated
    repeated  <- atom ('?' / '*' / '+')?
    atom      <- literal / class / '.' / word / '(' choice ')'

An empty sequence is the empty literal, and a sequence or choice of one item is that item.  A word
has to begin with a letter or underscore; the names of token kinds ask for tokens, all others for
rules.  The outermost of several labels wins.

Tokens are taken one at a time, and a fault of the lexer counts only when the token in front of it
is taken: of two errors the one further left is reported.
-/

namespace Packrat

namespace Expr

/-- The tokens that are still to be read, and the fault behind them. -/
abbrev Input := Lexed

namespace Input

/-- The next token. -/
def current? (input : Input) : Option Token := input.tokens.head?.map (·.1)

/-- Whether the next token is the given mark. -/
def isAt (input : Input) (b : UInt8) : Bool := input.current? == some (.mark b)

/-- An input as it may be looked at: a fault with no token left in front of it is an error. -/
def checked (input : Input) : Except PatternError Input :=
  match input.tokens, input.fault with
  | [], some fault => .error fault
  | _, _ => .ok input

/-- Takes the next token. -/
def advance (input : Input) : Except PatternError Input :=
  checked { input with tokens := input.tokens.tail }

end Input

/-- Resolves the escapes of a literal; unknown ones stay as they are written. -/
def unescape : Bytes → Bytes
  | [] => []
  | Byte.backslash :: b :: bs =>
    if b == 'n'.toUInt8 then Byte.newline :: unescape bs
    else if b == 't'.toUInt8 then Byte.tab :: unescape bs
    else if b == 'r'.toUInt8 then Byte.cr :: unescape bs
    else if b == Byte.backslash || b == Byte.quote || b == Byte.doubleQuote then b :: unescape bs
    else Byte.backslash :: b :: unescape bs
  | b :: bs => b :: unescape bs

/-- The atom that a word stands for. -/
def ofWord (name : Bytes) : Expr :=
  match TokenKind.ofName? name with
  | some kind => atom none (.token kind)
  | none => atom none (.rule name)

/-- Whether a word can name a rule. -/
def isName (name : Bytes) : Bool := name.head?.any fun b => Byte.isAlpha b || b == Byte.underscore

/-- The character class of a text. -/
def classOf (source : Bytes) : Except PatternError Expr :=
  match CharClass.ofSource? source with
  | some c => .ok (atom none (.charClass c))
  | none => .error (.invalidClass source)

/-- The repetition that a mark behind an atom stands for. -/
def repetition? (t : Option Token) : Option Operator :=
  if t == some (.mark Byte.question) then some .option
  else if t == some (.mark Byte.star) then some .star
  else if t == some (.mark Byte.plus) then some .plus
  else none

/-- The look-ahead that a mark in front of an atom stands for. -/
def lookahead? (t : Option Token) : Option (UInt8 × Operator) :=
  if t == some (.mark Byte.bang) then some (Byte.bang, .notAhead)
  else if t == some (.mark Byte.ampersand) then some (Byte.ampersand, .ahead)
  else none

/-- An expression that must be there. -/
def required (operator : UInt8) : Option Expr × Input → Except PatternError (Expr × Input)
  | (some e, input) => .ok (e, input)
  | (none, _) => .error (.missingOperand operator)

mutual

/-- Reads an ordered choice. -/
def readChoice : (fuel : Nat) → Input → Except PatternError (Expr × Input)
  | 0, _ => .error .missingBracket
  | fuel + 1, input => do
    let (first, input) ← readSequence fuel input
    let (others, input) ← readAlternatives fuel input
    return (alternatives (first :: others), input)

/-- Reads the alternatives behind the first one. -/
def readAlternatives : (fuel : Nat) → Input → Except PatternError (List Expr × Input)
  | 0, _ => .error .missingBracket
  | fuel + 1, input =>
    if input.isAt Byte.slash then do
      let input ← input.advance
      let (e, input) ← readSequence fuel input
      let (es, input) ← readAlternatives fuel input
      return (e :: es, input)
    else .ok ([], input)

/-- Reads a sequence. -/
def readSequence : (fuel : Nat) → Input → Except PatternError (Expr × Input)
  | 0, _ => .error .missingBracket
  | fuel + 1, input => do
    let (items, input) ← readItems fuel input
    return (if items.isEmpty then literal [] else sequence items, input)

/-- Reads the items of a sequence. -/
def readItems : (fuel : Nat) → Input → Except PatternError (List Expr × Input)
  | 0, _ => .error .missingBracket
  | fuel + 1, input =>
    match input.current? with
    | none => .ok ([], input)
    | some token =>
      if token == .mark Byte.slash || token == .mark Byte.closeParen then .ok ([], input)
      else do
        match ← readItem fuel input with
        | (none, _) => .error (.unexpected token)
        | (some e, input) =>
          let (es, input) ← readItems fuel input
          return (e :: es, input)

/-- Reads an item of a sequence, if one begins here. -/
def readItem : (fuel : Nat) → Input → Except PatternError (Option Expr × Input)
  | 0, _ => .error .missingBracket
  | fuel + 1, input =>
    match lookahead? input.current? with
    | some (mark, op) => do
      let input ← input.advance
      let (e, input) ← required mark (← readRepeated fuel input)
      return (some (apply none op e), input)
    | none =>
      match input.current? with
      | some (.label name) => do
        let input ← input.advance
        let (e, input) ← required Byte.atSign (← readItem fuel input)
        return (some (e.withLabel name), input)
      | _ => readRepeated fuel input

/-- Reads an atom and the repetition behind it, if an atom begins here. -/
def readRepeated : (fuel : Nat) → Input → Except PatternError (Option Expr × Input)
  | 0, _ => .error .missingBracket
  | fuel + 1, input => do
    match ← readAtom fuel input with
    | (none, input) => return (none, input)
    | (some e, input) =>
      match repetition? input.current? with
      | some op => return (some (apply none op e), ← input.advance)
      | none => return (some e, input)

/-- Reads an atom, if one begins here. -/
def readAtom : (fuel : Nat) → Input → Except PatternError (Option Expr × Input)
  | 0, _ => .error .missingBracket
  | fuel + 1, input =>
    match input.current? with
    | some (.quoted _ body) => do return (some (literal (unescape body)), ← input.advance)
    | some (.bracket body) => do
      let e ← classOf body
      return (some e, ← input.advance)
    | some (.word name) =>
      if isName name then do return (some (ofWord name), ← input.advance) else .ok (none, input)
    | some (.mark b) =>
      if b == Byte.dot then do return (some (atom none .anyByte), ← input.advance)
      else if b == Byte.openParen then do
        let input ← input.advance
        let (e, input) ← readChoice fuel input
        match input.current? with
        | none => .error .missingBracket
        | some token =>
          if token == .mark Byte.closeParen then return (some e, ← input.advance)
          else .error (.expectedBracket token)
      else .ok (none, input)
    | _ => .ok (none, input)

end

/-- Reads a whole input.  Every nested call but seven takes a token. -/
def readInput (input : Input) : Except PatternError Expr := do
  let input ← input.checked
  let (e, rest) ← readChoice (8 * (input.tokens.length + 1)) input
  match rest.tokens with
  | [] => return e
  | (token, offset) :: _ => .error (.leftOver token offset)

/-- Reads a pattern. -/
def read (source : Bytes) : Except PatternError Expr := readInput (Token.lex source)

end Expr

end Packrat
