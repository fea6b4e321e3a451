import Packrat.Regex.Basic
import Packrat.Regex.Token

/-!
Reading regular expressions.

`Regex.read?` turns a text into a `Regex`, or says that it is none.  The grammar is

    disjunction  <- alternative ('|' alternative)*
    alternative  <- term*
    term         <- assertion / atom quantifier*

where the assertions are the edges and the look-aheads.  A reference to a group is only allowed
behind the end of the group.  Inside a bracket `-` makes a range when it stands between two single
bytes; it is itself in front, at the end and behind a range, and it must not follow or precede a
class.
-/

namespace Packrat

namespace Regex

/-! ### Brackets -/

/-- The names of the bytes 0 to 127 in collating symbols; letters are their own names. -/
def collatingNames : List String :=
  ["NUL", "SOH", "STX", "ETX", "EOT", "ENQ", "ACK", "alert", "backspace", "tab", "newline",
   "vertical-tab", "form-feed", "carriage-return", "SO", "SI", "DLE", "DC1", "DC2", "DC3", "DC4",
   "NAK", "SYN", "ETB", "CAN", "EM", "SUB", "ESC", "IS4", "IS3", "IS2", "IS1", "space",
   "exclamation-mark", "quotation-mark", "number-sign", "dollar-sign", "percent-sign", "ampersand",
   "apostrophe", "left-parenthesis", "right-parenthesis", "asterisk", "plus-sign", "comma",
   "hyphen", "period", "slash", "zero", "one", "two", "three", "four", "five", "six", "seven",
   "eight", "nine", "colon", "semicolon",
   "less-than-sign", "equals-sign", "greater-than-sign", "question-mark", "commercial-at",
   "A", "B", "C", "D", "E", "F", "G", "H", "I", "J", "K", "L", "M",
   "N", "O", "P", "Q", "R", "S", "T", "U", "V", "W", "X", "Y", "Z",
   "left-square-bracket", "backslash", "right-square-bracket", "circumflex", "underscore",
   "grave-accent",
   "a", "b", "c", "d", "e", "f", "g", "h", "i", "j", "k", "l", "m",
   "n", "o", "p", "q", "r", "s", "t", "u", "v", "w", "x", "y", "z",
   "left-curly-bracket", "vertical-line", "right-curly-bracket", "tilde", "DEL"]

/-- The byte of a collating symbol. -/
def collatingByte? (name : Bytes) : Option UInt8 :=
  (collatingNames.findIdx? fun n => Bytes.ascii n == name).map UInt8.ofNat

/-- What stands in front of the next entry of a bracket. -/
inductive Last where
  | nothing
  /-- A byte that may still begin a range. -/
  | byte (b : UInt8)
  | cls

/-- The entry that a last byte becomes when no range follows. -/
def Last.items : Last → List BracketItem
  | .byte b => [.byte b]
  | _ => []

/-- The set of a class escape inside a bracket. -/
def classEscapeItem? (letter : UInt8) : Option BracketItem :=
  (NamedClass.ofName? [letter]).map fun c => if Byte.isUpper letter then .unnamed c else .named c

/-- The entry of a range. -/
def rangeItem? (lo hi : UInt8) : Option BracketItem :=
  if BracketItem.rank lo ≤ BracketItem.rank hi then some (.range lo hi) else none

/-- Reads the entries of a bracket up to its end. -/
def bracketItems (last : Last) : List Token → Option (List BracketItem × List Token)
  | [] => none
  | .closeBracket :: ts => some (last.items, ts)
  | .literal b :: ts => do
    let (items, rest) ← bracketItems (.byte b) ts
    return (last.items ++ items, rest)
  | .collating name :: ts => do
    let b ← collatingByte? name
    let (items, rest) ← bracketItems (.byte b) ts
    return (last.items ++ .byte b :: items, rest)
  | .className name :: ts => do
    let c ← NamedClass.ofName? name
    let (items, rest) ← bracketItems .cls ts
    return (last.items ++ .named c :: items, rest)
  | .equivalence name :: ts => do
    let b ← collatingByte? name
    let (items, rest) ← bracketItems .cls ts
    return (last.items ++ .letter b :: items, rest)
  | .classEscape letter :: ts => do
    let item ← classEscapeItem? letter
    let (items, rest) ← bracketItems .cls ts
    return (last.items ++ item :: items, rest)
  | .dash :: .closeBracket :: ts => some (last.items ++ [.byte Byte.minus], ts)
  | .dash :: ts =>
    match last with
    | .cls => none
    | .nothing => bracketItems (.byte Byte.minus) ts
    | .byte lo =>
      match ts with
      | .literal hi :: ts => do
        let item ← rangeItem? lo hi
        let (items, rest) ← bracketItems .nothing ts
        return (item :: items, rest)
      | .dash :: ts => do
        let item ← rangeItem? lo Byte.minus
        let (items, rest) ← bracketItems .nothing ts
        return (item :: items, rest)
      | _ => none
  | _ :: _ => none

/-! ### Quantifiers -/

/-- The largest count of a repetition or number of a group that can be written. -/
def countLimit : Nat := 0x7fffffff

/-- Reads a quantity; `none` inside means that none is written here. -/
def quantity? : List Token → Option (Option (Quantity × List Token))
  | .star :: ts => some (some (.star, ts))
  | .plus :: ts => some (some (.plus, ts))
  | .question :: ts => some (some (.option, ts))
  | .openBrace :: .count n :: .closeBrace :: ts =>
    if n ≤ countLimit then some (some (.times n (some 0), ts)) else none
  | .openBrace :: .count n :: .comma :: .closeBrace :: ts =>
    if n ≤ countLimit then some (some (.times n none, ts)) else none
  | .openBrace :: .count n :: .comma :: .count m :: .closeBrace :: ts =>
    if n ≤ m && m ≤ countLimit then some (some (.times n (some (m - n)), ts)) else none
  | .openBrace :: _ => none
  | _ => some none

/-- Applies the quantifiers that follow an atom, at most `fuel` of them. -/
def quantified : (fuel : Nat) → Regex → List Token → Option (Regex × List Token)
  | 0, _, _ => none
  | fuel + 1, r, ts =>
    match quantity? ts with
    | none => none
    | some none => some (r, ts)
    | some (some (q, .question :: ts)) => quantified fuel (.repeated r q true) ts
    | some (some (q, ts)) => quantified fuel (.repeated r q false) ts

/-! ### Expressions -/

/-- What the reader knows about groups: how many have been opened, and which are still open. -/
structure GroupCount where
  opened : Nat := 0
  active : List Nat := []

/-- Whether a group can be referred to. -/
def GroupCount.isClosed (g : GroupCount) (n : Nat) : Bool := n ≤ g.opened && !g.active.contains n

/-- The class of a class escape outside of brackets. -/
def classEscape? (letter : UInt8) : Option Regex :=
  (NamedClass.ofName? [letter]).map fun c => .byte (.bracket (Byte.isUpper letter) [.named c])

/-- Expects the end of a group. -/
def closed? : List Token → Option (List Token)
  | .close :: ts => some ts
  | _ => none

/-- What a reader step gives: the expression, the groups so far, the rest. -/
abbrev Step := Regex × GroupCount × List Token

mutual

/-- Reads alternatives. -/
def disjunction : (fuel : Nat) → GroupCount → List Token → Option Step
  | 0, _, _ => none
  | fuel + 1, g, ts => do
    let (r, g, ts) ← alternative fuel g ts
    moreAlternatives fuel r g ts

/-- Adds the alternatives that follow to those read so far. -/
def moreAlternatives : (fuel : Nat) → Regex → GroupCount → List Token → Option Step
  | 0, _, _, _ => none
  | fuel + 1, r, g, ts =>
    match ts with
    | .bar :: ts => do
      let (s, g, ts) ← alternative fuel g ts
      moreAlternatives fuel (.alt r s) g ts
    | ts => some (r, g, ts)

/-- Reads terms one after the other. -/
def alternative : (fuel : Nat) → GroupCount → List Token → Option Step
  | 0, _, _ => none
  | fuel + 1, g, ts => do
    match ← term fuel g ts with
    | none => return (.empty, g, ts)
    | some (r, g, ts) =>
      let (s, g, ts) ← alternative fuel g ts
      return (.seq r s, g, ts)

/-- Reads a term; `none` inside means that no term begins here. -/
def term : (fuel : Nat) → GroupCount → List Token → Option (Option Step)
  | 0, _, _ => none
  | fuel + 1, g, ts =>
    match ts with
    | .caret :: ts => some (some (.edge .start, g, ts))
    | .dollar :: ts => some (some (.edge .stop, g, ts))
    | .wordEdge between :: ts => some (some (.edge (.word between), g, ts))
    | .openLook positive :: ts => do
      let (r, g, ts) ← disjunction fuel g ts
      let ts ← closed? ts
      return some (.look positive r, g, ts)
    | ts => do
      match ← atom fuel g ts with
      | none => return none
      | some (r, g, ts) =>
        let (r, ts) ← quantified (ts.length + 1) r ts
        return some (r, g, ts)

/-- Reads what a quantifier applies to; `none` inside means that nothing of the kind begins here. -/
def atom : (fuel : Nat) → GroupCount → List Token → Option (Option Step)
  | 0, _, _ => none
  | fuel + 1, g, ts =>
    match ts with
    | .dot :: ts => some (some (.byte .withinLine, g, ts))
    | .literal b :: ts => some (some (.byte (.exactly b), g, ts))
    | .backref n :: ts => if g.isClosed n then some (some (.backref n, g, ts)) else none
    | .classEscape letter :: ts => do
      let r ← classEscape? letter
      return some (r, g, ts)
    | .openBracket negated :: ts => do
      let (items, ts) ← bracketItems .nothing ts
      return some (.byte (.bracket negated items), g, ts)
    | .openPlain :: ts => do
      let (r, g, ts) ← disjunction fuel g ts
      let ts ← closed? ts
      return some (.seq .empty r, g, ts)
    | .openGroup :: ts => do
      let n := g.opened + 1
      let (r, h, ts) ← disjunction fuel { opened := n, active := n :: g.active } ts
      let ts ← closed? ts
      return some (.group n r, { h with active := g.active }, ts)
    | _ => some none

end

/-- Reads a regular expression. -/
def read? (source : Bytes) : Option Regex := do
  let tokens ← Token.lex? source
  let (r, _, rest) ← disjunction (4 * tokens.length + 4) {} tokens
  if rest.isEmpty && r.cost + 3 ≤ costLimit then some r else none

end Regex

end Packrat
