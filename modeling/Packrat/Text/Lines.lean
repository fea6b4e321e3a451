import Packrat.Bisect
import Packrat.Text.Edit

/-!
The line table of a text: the offset at which each line starts.

Line 1 starts at 0 and every newline starts one more line right behind it.  A position is found by
halving the table.  An edit removes the starts that followed a replaced newline, which are those in
`(offset, offset + oldLength]`, moves the later ones and puts in those of the new text.
-/

namespace Packrat

/-- The offsets at which the lines of a text start. -/
structure LineTable where
  starts : Array Nat

namespace LineTable

/-- The offsets right behind the newlines of `bs`, if its first byte stands at `o`. -/
def startsOf : Bytes → (o : Nat) → List Nat
  | [], _ => []
  | b :: bs, o => if b == Byte.newline then (o + 1) :: startsOf bs (o + 1) else startsOf bs (o + 1)

/-- The line table of a text. -/
def ofText (t : Text) : LineTable := ⟨(0 :: startsOf t.toList 0).toArray⟩

/-- The number of lines. -/
def count (l : LineTable) : Nat := l.starts.size

/-- The number of the entries from `first` on that the search passes on its way to `o`. -/
def upTo (l : LineTable) (first o : Nat) : Nat :=
  bisect (fun i => l.starts.getD i 0 ≤ o) first (l.starts.size - first)

/-- The line and column of an offset, both counted from 1. -/
def position (l : LineTable) (o : Nat) : Nat × Nat :=
  let line := l.upTo 0 o
  (line, Offset.wrap ((o : Int) - (l.starts.getD (line - 1) 0 : Int) + 1))

/-- Keeps the table in step with an edit of the text. -/
def edit (l : LineTable) (e : Edit) : LineTable :=
  let first := l.upTo 0 e.offset
  let last := l.upTo first e.stop
  let inserted := (startsOf e.newText e.offset).map fun o : Nat => Offset.wrap o
  let moved := (l.starts.extract last l.starts.size).map fun o => Offset.move o e.delta
  ⟨l.starts.extract 0 first ++ inserted.toArray ++ moved⟩

end LineTable

end Packrat
