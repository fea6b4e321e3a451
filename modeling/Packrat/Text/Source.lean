import Packrat.Text.Lines

/-!
A source: a text together with its line table.

The two are only changed together, so that positions always belong to the text.
-/

namespace Packrat

/-- A text and the table of its lines. -/
structure Source where
  text : Text
  lines : LineTable

namespace Source

def ofText (t : Text) : Source := ⟨t, .ofText t⟩

def ofBytes (bs : Bytes) : Source := ofText bs.toArray

def empty : Source := ofText #[]

def size (s : Source) : Nat := s.text.size

/-- The line and column of an offset; an offset behind the end counts as the end. -/
def position (s : Source) (o : Nat) : Nat × Nat := s.lines.position (min o s.size)

/-- The bytes of `[start, stop)`, as far as they exist; a stretch that would end before it starts
reaches to the end of the text. -/
def slice (s : Source) (start stop : Nat) : Bytes :=
  if min stop s.size < min start s.size then s.text.slice start s.size else s.text.slice start stop

/-- The text after an edit, and its lines kept in step. -/
def edit (s : Source) (e : Edit) : Source := ⟨e.applyTo s.text, s.lines.edit e⟩

/-- Applies an edit that starts inside the text or at its end. -/
def edit? (s : Source) (e : Edit) : Option Source :=
  if e.offset ≤ s.size then some (s.edit e) else none

end Source

end Packrat
