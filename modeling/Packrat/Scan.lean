import Packrat.Comment
import Packrat.Footprint
import Packrat.Regex.Match

/-!
Scanning a text: white space, comments, literals and tokens.

Every scanner gives a `Look`: how far it got and which stretch of the text it examined to find out.
The offset one past the last byte stands for the end of the input, so a scanner that has met the end
has examined that offset, and nothing behind it can be examined.

Scanners are also asked about offsets behind the end.  There is nothing to find there; only a
scanner that would cut a stretch out of the text fails altogether (`Reach.beyond`).
-/

namespace Packrat

/-- How far a scanner got. -/
inductive Reach where
  | upTo (stop : Nat)
  | nothing
  /-- The scanner was sent behind the end of the text. -/
  | beyond
  deriving DecidableEq, Repr

/-- What a scanner found, and the stretch `[start, stop)` that it examined. -/
structure Look where
  reach : Reach
  start : Nat
  stop : Nat
  deriving DecidableEq, Repr

/-- Adds what a scanner examined. -/
def Footprint.note (f : Footprint) (l : Look) : Footprint := f.add l.start l.stop

namespace Scan

/-- A look at `[start, stop)`, as far as the text and its end go. -/
def look (t : Text) (start stop : Nat) (reach : Reach) : Look :=
  ⟨reach, start, min stop (t.size + 1)⟩

/-- Whether the byte at an offset belongs to a class. -/
def has (t : Text) (inside : UInt8 → Bool) (o : Nat) : Bool := (t[o]?).any inside

/-- White space, possibly none. -/
def blanks (t : Text) (o : Nat) : Look :=
  let stop := t.scanWhile Byte.isBlank o
  look t o (stop + 1) (.upTo stop)

/-- A fixed text; a word must not go on behind its end. -/
def literal (t : Text) (text : Bytes) (isWord : Bool) (o : Nat) : Look :=
  let stop := o + text.length
  let found :=
    if o ≤ t.size then
      if t.startsAt text o && !(isWord && has t Byte.isWord stop) then .upTo stop else .nothing
    else if stop % Offset.count ≤ t.size then .beyond
    else .nothing
  look t o (if isWord then stop + 1 else stop) found

/-- One byte of a class. -/
def byte (t : Text) (inside : UInt8 → Bool) (o : Nat) : Look :=
  look t o (o + 1) (if has t inside o then .upTo (o + 1) else .nothing)

/-- Digits of an exponent with its mark and sign, or nothing of them. -/
def exponentEnd (t : Text) (o : Nat) : Nat :=
  if has t (fun b => b == 'e'.toUInt8 || b == 'E'.toUInt8) o then
    let signed := has t (fun b => b == Byte.plus || b == Byte.minus) (o + 1)
    let digits := if signed then o + 2 else o + 1
    if has t Byte.isDigit digits then t.scanWhile Byte.isDigit digits else o
  else o

/-- A point and digits, or nothing of them. -/
def fractionEnd (t : Text) (o : Nat) : Nat :=
  if has t (· == Byte.dot) o && has t Byte.isDigit (o + 1) then t.scanWhile Byte.isDigit (o + 1)
  else o

/-- A number; a fraction or exponent that is given up takes up to three bytes to see. -/
def number (t : Text) (o : Nat) : Look :=
  let whole := t.scanWhile Byte.isDigit o
  if whole == o then look t o (o + 1) .nothing
  else
    let stop := exponentEnd t (fractionEnd t whole)
    look t o (stop + 3) (.upTo stop)

/-- The offset of the closing quote; a backslash protects the byte behind it. -/
def closingQuote (t : Text) (quote : UInt8) (o : Nat) : Option Nat :=
  if h : o < t.size then
    if t[o] == Byte.backslash && o + 1 < t.size then closingQuote t quote (o + 2)
    else if t[o] == quote then some o
    else closingQuote t quote (o + 1)
  else none
termination_by t.size - o

/-- A text in single or double quotes. -/
def quoted (t : Text) (o : Nat) : Look :=
  match t[o]? with
  | none => look t o (o + 1) .nothing
  | some quote =>
    if quote == Byte.doubleQuote || quote == Byte.quote then
      match closingQuote t quote (o + 1) with
      | some q => look t o (q + 1) (.upTo (q + 1))
      | none => look t o (t.size + 1) .nothing
    else look t o (o + 1) .nothing

/-- A letter or underscore, and the word bytes behind it. -/
def identifier (t : Text) (o : Nat) : Look :=
  if has t (fun b => Byte.isAlpha b || b == Byte.underscore) o then
    let stop := t.scanWhile Byte.isWord (o + 1)
    look t o (stop + 1) (.upTo stop)
  else look t o (o + 1) .nothing

/-- A newline, with or without a carriage return. -/
def newline (t : Text) (o : Nat) : Look :=
  look t o (o + 2) <|
    if has t (· == Byte.newline) o then .upTo (o + 1)
    else if has t (· == Byte.cr) o && has t (· == Byte.newline) (o + 1) then .upTo (o + 2)
    else .nothing

/-! ### Comments -/

/-- The longest text that a comment with an expression of its own can match. -/
def regexWindow : Nat := 4096

/-- The number of bytes of `opening` found at `o`. -/
def commonLength (t : Text) : Bytes → (o : Nat) → Nat
  | [], _ => 0
  | b :: bs, o => if t[o]? == some b then commonLength t bs (o + 1) + 1 else 0

/-- A match up to `stop` that must not be empty. -/
def proper (o stop : Nat) : Reach := if stop == o then .nothing else .upTo stop

/-- The first offset from `o` on that ends a line; the end of the text if `o` lies behind it. -/
def lineEnd (t : Text) (o : Nat) : Nat := min (t.scanWhile (fun b => !Byte.isLineEnd b) o) t.size

/-- The text from `body` on up to the end of a terminator. -/
def terminated (t : Text) (terminator : Bytes) (crossesLines : Bool) (o body : Nat) : Look :=
  if crossesLines then
    match t.find? terminator body t.size with
    | some found => look t o (found + terminator.length) (proper o (found + terminator.length))
    | none => look t o (t.size + 1) .nothing
  else if t.size < body then look t o o .beyond
  else
    let limit := min t.size (lineEnd t body + terminator.length)
    match t.find? terminator body limit with
    | some found => look t o (found + terminator.length) (proper o (found + terminator.length))
    | none => look t o (limit + 1) .nothing

/-- What an expression matches in the window that begins at `o`. -/
def regex (t : Text) (r : Regex) (o : Nat) : Look :=
  let stop := min t.size (o + regexWindow)
  let found :=
    if o ≤ t.size then
      match r.matchFrom { text := t, origin := o, stop := stop, cut := stop < t.size } with
      | some stop => proper o stop
      | none => .nothing
    else .nothing
  look t o (stop + 1) found

/-- A comment of the given pattern. -/
def comment (t : Text) (c : Comment) (o : Nat) : Look :=
  let common := commonLength t c.opening o
  if common < c.opening.length then look t o (o + common + 1) .nothing
  else
    let body := o + c.opening.length
    match c.shape with
    | .literal => look t o body (.upTo body)
    | .toLineEnd => let stop := lineEnd t body; look t o (stop + 1) (proper o stop)
    | .toInputEnd => look t o (t.size + 1) (proper o t.size)
    | .upTo terminator crossesLines => terminated t terminator crossesLines o body
    | .regex r => regex t r o

/-- Tries the comments one after the other, each where the one before has ended; tells whether one
was found. -/
def comments (t : Text) : List Comment → (found : Bool) → (o : Nat) → Footprint →
    Option (Bool × Nat × Footprint)
  | [], found, o, f => some (found, o, f)
  | c :: cs, found, o, f =>
    let l := comment t c o
    match l.reach with
    | .upTo stop => comments t cs true stop (f.note l)
    | .nothing => comments t cs found o (f.note l)
    | .beyond => none

/-- White space and comments in turn, until neither is found; at most `fuel` rounds. -/
def ignoredFrom (t : Text) (cs : List Comment) : (fuel : Nat) → (o : Nat) → Footprint →
    Option (Nat × Footprint)
  | 0, o, f => some (o, f)
  | fuel + 1, o, f => do
    let stop := t.scanWhile Byte.isBlank o
    let (found, next, f) ← comments t cs (stop != o) stop (f.note (blanks t o))
    if found then ignoredFrom t cs fuel next f else return (next, f)

/-- Skips white space and comments, adding what was examined; `none` if a scanner was sent behind
the end.  Every round but the first and the last gains at least a byte. -/
def ignored (t : Text) (cs : List Comment) (o : Nat) (f : Footprint) : Option (Nat × Footprint) :=
  ignoredFrom t cs (t.size + 2) o f

end Scan

end Packrat
