import Packrat.Bytes

/-!
Edits of a text and what they do to offsets.

Offsets are 64-bit words: an offset that moves below zero or beyond the last word comes round
again (`Offset.wrap`).  Inside a text nothing wraps; the arithmetic only shows on offsets that no
text can have.

An edit replaces `[offset, offset + oldLength)`.  An offset moves with it when it lies behind the
replaced range (`Edit.isBehind`); an offset at which text is inserted stays where it is, so that
an insertion lands behind everything that ended there.
-/

namespace Packrat

namespace Offset

/-- The number of different offsets: two to the power of 64. -/
def count : Nat := 0x10000000000000000

/-- Brings a number back into the range of offsets. -/
def wrap (n : Int) : Nat := (n % (count : Int)).toNat

/-- An offset displaced by a signed distance. -/
def move (o : Nat) (delta : Int) : Nat := wrap ((o : Int) + delta)

/-- Whether an offset lies behind an edit of `[editStart, editEnd)` and moves with it. -/
def isBehind (o editStart editEnd : Nat) : Bool := editStart < o && editEnd ≤ o

/-- Where an offset is found after an edit of `[editStart, editEnd)` that changes the length by
`delta`. -/
def shift (o editStart editEnd : Nat) (delta : Int) : Nat :=
  if isBehind o editStart editEnd then move o delta else o

end Offset

/-- Replaces `[offset, offset + oldLength)` with `newText`. -/
structure Edit where
  offset : Nat
  oldLength : Nat
  newText : Bytes

namespace Edit

/-- The end of the replaced range. -/
def stop (e : Edit) : Nat := Offset.wrap ((e.offset + e.oldLength : Nat) : Int)

def newLength (e : Edit) : Nat := e.newText.length

/-- The change of length, as a signed word. -/
def delta (e : Edit) : Int :=
  ((e.newLength : Int) - (e.oldLength : Int)).bmod Offset.count

/-- Cuts the edit so that it lies inside a text of the given size. -/
def clamp (e : Edit) (size : Nat) : Edit :=
  let offset := min e.offset size
  { e with offset := offset, oldLength := min e.oldLength (size - offset) }

/-- The text after the edit, which starts inside it. -/
def applyTo (e : Edit) (t : Text) : Text := t.splice e.offset e.oldLength e.newText

end Edit

end Packrat
