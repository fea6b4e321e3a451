import Packrat.Bytes

/-!
Regular expressions over bytes: what they are, before anything is read or matched.

A `Regex` is built from one-byte classes, edges (places between bytes), groups, look-aheads,
references to groups, sequences, alternatives and repetitions.  Repetitions come in the four written
forms, because they differ in how their copies share loop counters: the body of `+` is one copy run
again, while a counted repetition is as many copies as it needs.

`Regex.cost` counts the states of the automaton that the expression stands for, every copy made on
the way included; expressions beyond `Regex.costLimit` are refused by the reader.
-/

namespace Packrat

/-! ### One-byte classes -/

/-- The named sets of bytes. -/
inductive NamedClass where
  | alnum | alpha | blank | cntrl | digit | graph | lower | print | punct | space | upper | xdigit
  | word
  deriving DecidableEq, Repr

namespace NamedClass

/-- The bytes of a named set. -/
def accepts : NamedClass → UInt8 → Bool
  | alnum, b => Byte.isAlnum b
  | alpha, b => Byte.isAlpha b
  | blank, b => b == Byte.blank || b == Byte.tab
  | cntrl, b => b < 32 || b == 127
  | digit, b => Byte.isDigit b
  | graph, b => 33 ≤ b && b ≤ 126
  | lower, b => Byte.isLower b
  | print, b => 32 ≤ b && b ≤ 126
  | punct, b => 33 ≤ b && b ≤ 126 && !Byte.isAlnum b
  | space, b => Byte.isSpace b
  | upper, b => Byte.isUpper b
  | xdigit, b => Byte.isHexDigit b
  | word, b => Byte.isWord b

/-- The names, with the one-letter abbreviations. -/
def names : List (String × NamedClass) :=
  [("d", digit), ("w", word), ("s", space), ("alnum", alnum), ("alpha", alpha), ("blank", blank),
   ("cntrl", cntrl), ("digit", digit), ("graph", graph), ("lower", lower), ("print", print),
   ("punct", punct), ("space", space), ("upper", upper), ("xdigit", xdigit)]

/-- The set of a name, whatever the case of its letters. -/
def ofName? (name : Bytes) : Option NamedClass :=
  (names.find? fun entry => Bytes.ascii entry.1 == name.map Byte.toLower).map (·.2)

end NamedClass

/-- One entry of a bracket. -/
inductive BracketItem where
  | byte (b : UInt8)
  /-- All bytes from `lo` to `hi`, in the order in which bytes above 127 come first. -/
  | range (lo hi : UInt8)
  | named (c : NamedClass)
  /-- All bytes outside a named set. -/
  | unnamed (c : NamedClass)
  /-- A letter in either case. -/
  | letter (b : UInt8)
  deriving DecidableEq, Repr

namespace BracketItem

/-- Bytes in the order of ranges: those above 127 stand for negative numbers. -/
def rank (b : UInt8) : UInt8 := b + 128

def accepts : BracketItem → UInt8 → Bool
  | byte c, b => b == c
  | range lo hi, b => rank lo ≤ rank b && rank b ≤ rank hi
  | named c, b => c.accepts b
  | unnamed c, b => !c.accepts b
  | letter c, b => Byte.toLower b == Byte.toLower c

end BracketItem

/-- A set of bytes that matches one of them. -/
inductive ByteClass where
  | exactly (b : UInt8)
  /-- Every byte that does not end a line. -/
  | withinLine
  | bracket (negated : Bool) (items : List BracketItem)
  deriving DecidableEq, Repr

namespace ByteClass

def accepts : ByteClass → UInt8 → Bool
  | exactly c, b => b == c
  | withinLine, b => !Byte.isLineEnd b
  | bracket negated items, b => items.any (·.accepts b) != negated

end ByteClass

/-! ### Expressions -/

/-- A place between two bytes. -/
inductive Edge where
  | start
  | stop
  /-- Between a word byte and another byte, or not (`word false`). -/
  | word (between : Bool)
  deriving DecidableEq, Repr

/-- How often a repeated expression may occur. -/
inductive Quantity where
  | star
  | plus
  | option
  /-- At least `least` times and, if there is a bound, at most `least + extra` times. -/
  | times (least : Nat) (extra : Option Nat)
  deriving DecidableEq, Repr

/-- A regular expression. -/
inductive Regex where
  | empty
  | byte (c : ByteClass)
  | edge (e : Edge)
  /-- The text that group `n` has matched. -/
  | backref (n : Nat)
  | group (n : Nat) (r : Regex)
  /-- Looks whether `r` matches here (or does not), without moving. -/
  | look (positive : Bool) (r : Regex)
  | seq (a b : Regex)
  | alt (a b : Regex)
  | repeated (r : Regex) (q : Quantity) (short : Bool)
  deriving DecidableEq, Repr

namespace Regex

/-- The number of loop counters that an expression uses, each copy of a body having its own. -/
def loops : Regex → Nat
  | empty | byte _ | edge _ | backref _ => 0
  | group _ r | look _ r => r.loops
  | seq a b | alt a b => a.loops + b.loops
  | repeated r q _ =>
    match q with
    | .star | .plus | .option => r.loops + 1
    | .times least none => least * r.loops + (r.loops + 1)
    | .times least (some extra) => least * r.loops + extra * (r.loops + 1)

/-- The largest number of a group. -/
def groups : Regex → Nat
  | empty | byte _ | edge _ | backref _ => 0
  | group n r => max n r.groups
  | look _ r | repeated r _ _ => r.groups
  | seq a b | alt a b => max a.groups b.groups

/-- The number of states that one copy of an expression consists of. -/
def weight : Regex → Nat
  | empty | byte _ | edge _ | backref _ => 1
  | group _ r | look _ r => r.weight + 2
  | seq a b => a.weight + b.weight
  | alt a b => a.weight + b.weight + 2
  | repeated r q _ =>
    match q with
    | .star | .plus => r.weight + 1
    | .option => r.weight + 2
    | .times least none => least * r.weight + r.weight + 2
    | .times least (some extra) => least * r.weight + extra * (r.weight + 1) + 2

/-- The number of states made while an expression is built: a counted repetition copies its body
and leaves the first one behind. -/
def cost : Regex → Nat
  | empty | byte _ | edge _ | backref _ => 1
  | group _ r | look _ r => r.cost + 2
  | seq a b => a.cost + b.cost
  | alt a b => a.cost + b.cost + 2
  | repeated r q short =>
    match q with
    | .star | .plus => r.cost + 1
    | .option => r.cost + 2
    | .times _ _ => r.cost + (repeated r q short).weight

/-- The largest number of states, the frame around the whole expression included. -/
def costLimit : Nat := 100000

end Regex

end Packrat
