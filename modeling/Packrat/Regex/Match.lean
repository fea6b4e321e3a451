import Packrat.Regex.Basic

/-!
Matching a regular expression by backtracking.

`Regex.run` tries the ways of matching in order (left alternative first, a repetition as long as
possible unless it is a short one) and hands each place that it reaches to a continuation; the first
way that the continuation accepts is the match.  The text is seen through a `Window`: nothing in
front of its origin and nothing behind its stop exists.

Two rules keep the search finite.  Every byte class consumes a byte, and a loop is not run a third
time before a byte has been consumed: `Spot.laps` lists the loops run since the last one.

A failed way hands back the groups, because what a look-ahead has captured stays captured after the
way behind it has failed.
-/

namespace Packrat

namespace Regex

/-- The part of a text that a match can see. -/
structure Window where
  text : Text
  origin : Nat
  stop : Nat
  /-- Whether the text goes on behind `stop`; then no edge is recognised there. -/
  cut : Bool := false

namespace Window

def byte? (w : Window) (pos : Nat) : Option UInt8 :=
  if pos < w.stop then w.text[pos]? else none

/-- Whether exactly one of the two bytes around `pos` is a word byte. -/
def isWordEdge (w : Window) (pos : Nat) : Bool :=
  if pos == w.stop && w.cut then false
  else
    let left := w.origin < pos && (w.byte? (pos - 1)).any Byte.isWord
    let right := (w.byte? pos).any Byte.isWord
    left != right

/-- Whether an edge lies at `pos`. -/
def isEdge (w : Window) (pos : Nat) : Edge → Bool
  | .start => pos == w.origin
  | .stop => pos == w.stop && !w.cut
  | .word between => w.isWordEdge pos == between

/-- Whether the bytes of `[start, stop)` stand at `pos` as well. -/
def repeats (w : Window) (start stop pos : Nat) : Bool :=
  pos + (stop - start) ≤ w.stop &&
    w.text.slice start stop == w.text.slice pos (pos + (stop - start))

end Window

/-- The spans that the groups have matched. -/
abbrev Groups := Array (Option (Nat × Nat))

/-- A place that a match has reached. -/
structure Spot where
  pos : Nat
  groups : Groups
  /-- The loops run since the last byte. -/
  laps : List Nat := []

/-- The end of a match, or the groups left behind by a failure. -/
abbrev Found := Except Groups Spot

/-- The rest of a match. -/
abbrev Rest := Spot → Found

/-- Moves behind a byte or more. -/
def Spot.advance (s : Spot) (pos : Nat) : Spot := { s with pos := pos, laps := [] }

/-- Tries one way and, if it fails, another. -/
def either (first : Found) (second : Groups → Found) : Found :=
  match first with
  | .ok s => .ok s
  | .error g => second g

/-- One more lap of loop `id` or none, in the order of preference. -/
def lap (id : Nat) (short : Bool) (s : Spot) (more done : Rest) : Found :=
  let again (s : Spot) : Found :=
    if s.laps.count id < 2 then more { s with laps := id :: s.laps } else .error s.groups
  if short then either (done s) fun g => again { s with groups := g }
  else either (again s) fun g => done { s with groups := g }

/-- Laps of one loop, at most `fuel` of them. -/
def iterate (body : Spot → Rest → Found) (id : Nat) (short : Bool) :
    (fuel : Nat) → Spot → Rest → Found
  | 0, s, k => k s
  | fuel + 1, s, k => lap id short s (fun s => body s fun s => iterate body id short fuel s k) k

/-- Copies of a body one after the other; the counters of a copy start at `base`. -/
def copies (body : (base : Nat) → Spot → Rest → Found) (step : Nat) :
    (count base : Nat) → Spot → Rest → Found
  | 0, _, s, k => k s
  | count + 1, base, s, k => body base s fun s => copies body step count (base + step) s k

/-- Copies of a body of which any number may be left out at the end. -/
def spares (body : (base : Nat) → Spot → Rest → Found) (step : Nat) (short : Bool) :
    (count base : Nat) → Spot → Rest → Found
  | 0, _, s, k => k s
  | count + 1, base, s, k =>
    lap base short s
      (fun s => body (base + 1) s fun s => spares body step short count (base + step) s k) k

/-- The bound on the laps of a loop that starts at a place: two for every place up to the end. -/
def Window.laps (w : Window) (s : Spot) : Nat := 2 * (w.stop + 1 - s.pos) + 1

/-- Matches from a place on; loop counters are numbered from `base`. -/
def run (w : Window) : Regex → (base : Nat) → Spot → Rest → Found
  | empty, _, s, k => k s
  | byte c, _, s, k =>
    match w.byte? s.pos with
    | some b => if c.accepts b then k (s.advance (s.pos + 1)) else .error s.groups
    | none => .error s.groups
  | edge e, _, s, k => if w.isEdge s.pos e then k s else .error s.groups
  | backref n, _, s, k =>
    match s.groups[n]?.join with
    | none => .error s.groups
    | some (start, stop) =>
      if w.repeats start stop s.pos then
        if start < stop then k (s.advance (s.pos + (stop - start))) else k s
      else .error s.groups
  | group n r, base, s, k =>
    run w r base s fun t =>
      either (k { t with groups := t.groups.setIfInBounds n (some (s.pos, t.pos)) })
        fun g => .error (g.setIfInBounds n (t.groups[n]?.join))
  | look positive r, base, s, k =>
    match run { w with origin := s.pos } r base { s with laps := [] } .ok with
    | .ok t => if positive then k { s with groups := t.groups } else .error t.groups
    | .error _ => if positive then .error s.groups else k s
  | seq a b, base, s, k => run w a base s fun s => run w b (base + a.loops) s k
  | alt a b, base, s, k =>
    either (run w a base s k) fun g => run w b (base + a.loops) { s with groups := g } k
  | repeated r q short, base, s, k =>
    let body := fun base s k => run w r base s k
    let fuel := w.laps s
    match q with
    | .star => iterate (body (base + 1)) base short fuel s k
    | .plus => body (base + 1) s fun s => iterate (body (base + 1)) base short fuel s k
    | .option => lap base short s (fun s => body (base + 1) s k) k
    | .times least none =>
      copies body r.loops least base s fun s =>
        let base := base + least * r.loops
        iterate (body (base + 1)) base short fuel s k
    | .times least (some extra) =>
      copies body r.loops least base s fun s =>
        spares body (r.loops + 1) short extra (base + least * r.loops) s k

/-- The place at the origin of a window. -/
def Window.spot (w : Window) (r : Regex) : Spot :=
  { pos := w.origin, groups := Array.replicate (r.groups + 1) none }

/-- The end of the match that begins at the origin of the window. -/
def matchFrom (r : Regex) (w : Window) : Option Nat :=
  match r.run w 0 (w.spot r) .ok with
  | .ok s => some s.pos
  | .error _ => none

/-- Whether the whole window can be matched. -/
def matchesWhole (r : Regex) (w : Window) : Bool :=
  match r.run w 0 (w.spot r) fun s => if s.pos = w.stop then .ok s else .error s.groups with
  | .ok _ => true
  | .error _ => false

/-- Whether an expression matches a text of one byte. -/
def matchesByte (r : Regex) (b : UInt8) : Bool :=
  r.matchesWhole { text := #[b], origin := 0, stop := 1 }

end Regex

end Packrat
