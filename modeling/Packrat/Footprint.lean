import Packrat.Bisect
import Packrat.Text.Edit

/-!
Footprints: the set of source offsets that a match has looked at.

A footprint is kept as half-open spans.  `add` keeps them sorted, apart and not touching; the
offset one past the last byte stands for the end of the input, so that looking whether the text
goes on leaves a trace as well.  `mem` is the set that a footprint denotes, and `intersects` tests
it against a range by halving.
-/

namespace Packrat

/-- A set of offsets, as half-open spans in stored order. -/
structure Footprint where
  spans : Array (Nat × Nat) := #[]

namespace Footprint

/-- No offset. -/
def empty : Footprint := {}

def isEmpty (f : Footprint) : Bool := f.spans.isEmpty

/-- Membership of an offset in one of the spans. -/
def mem (f : Footprint) (x : Nat) : Prop := ∃ s ∈ f.spans, s.1 ≤ x ∧ x < s.2

/-- Swallows the spans that begin inside a span reaching up to `stop`; gives the reach of the
union and the spans behind it. -/
def absorb (stop : Nat) : List (Nat × Nat) → Nat × List (Nat × Nat)
  | [] => (stop, [])
  | s :: rest => if s.1 ≤ stop then absorb (max stop s.2) rest else (stop, s :: rest)

/-- Adds the offsets of `[start, stop)`. -/
def add (f : Footprint) (start stop : Nat) : Footprint :=
  if stop ≤ start then f
  else if f.spans.back?.all (fun s => s.2 < start) then ⟨f.spans.push (start, stop)⟩
  else
    let i := bisect (fun k => (f.spans[k]?).any fun s => s.2 < start) 0 f.spans.size
    let before := f.spans.extract 0 i
    match f.spans[i]? with
    | none => ⟨f.spans.push (start, stop)⟩
    | some s =>
      if stop < s.1 then
        ⟨before.push (start, stop) ++ f.spans.extract i f.spans.size⟩
      else
        let joined := absorb (max s.2 stop) (f.spans.extract (i + 1) f.spans.size).toList
        ⟨before.push (min s.1 start, joined.1) ++ joined.2.toArray⟩

/-- Union; a union with nothing keeps the other side as it is stored. -/
def merge (f g : Footprint) : Footprint :=
  if f.spans.isEmpty then g else g.spans.foldl (fun f s => f.add s.1 s.2) f

/-- Whether some offset of the set lies in `[start, stop)`. -/
def intersects (f : Footprint) (start stop : Nat) : Bool :=
  if stop ≤ start then false
  else
    let i := bisect (fun k => (f.spans[k]?).any fun s => s.2 ≤ start) 0 f.spans.size
    (f.spans[i]?).any fun s => s.1 < stop

/-- Moves every span that lies behind an edit. -/
def shift (f : Footprint) (editStart editEnd : Nat) (delta : Int) : Footprint :=
  ⟨f.spans.map fun s =>
    if Offset.isBehind s.1 editStart editEnd then (Offset.move s.1 delta, Offset.move s.2 delta)
    else s⟩

end Footprint

end Packrat
