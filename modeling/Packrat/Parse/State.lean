import Packrat.Grammar.Basic
import Packrat.Log
import Packrat.Scan
import Packrat.Text.Source
import Packrat.Tree.Subtree
import Std.Data.HashMap
import Std.Data.HashSet

/-!
What a match works with and what it leaves behind.

A match of an expression succeeds with the offset it has reached and a yield: nodes and stretches of
raw text.  The matcher remembers the outcome of every rule and token at every offset (`State.memo`),
together with what was examined to reach it.

The footprint of a match is kept by frames.  The frame of a rule collects what the rule itself
examined, and which nodes were made on its behalf.  Nodes that end up below the node of the rule
answer for their own reads; those that were made in vain are charged to the rule (`Frame.settle`).
-/

namespace Packrat

namespace Parse

/-- What a match is about: a rule or token, by its number, at an offset. -/
structure Key where
  symbol : Nat
  offset : Nat
  deriving DecidableEq, Hashable, Repr

/-- A part of what a match yields. -/
inductive Piece where
  /-- A node; the key tells it from all other nodes of a parse. -/
  | node (key : Key) (tree : Subtree)
  /-- Matched text. -/
  | text (bytes : Bytes) (offset : Nat)

/-- What a match yields. -/
inductive Yield where
  /-- The value of a rule, token, literal or class on its own. -/
  | one (p : Piece)
  /-- The values collected by a sequence or repetition. -/
  | many (ps : Array Piece)

/-- How a match has ended. -/
inductive Outcome where
  | fail
  | ok (stop : Nat) (yield : Yield)

namespace Piece

def node? : Piece → Option (Key × Subtree)
  | node key tree => some (key, tree)
  | text _ _ => none

end Piece

namespace Yield

def empty : Yield := many #[]

def pieces : Yield → Array Piece
  | one p => #[p]
  | many ps => ps

/-- The nodes among the pieces. -/
def nodes (y : Yield) : Array (Key × Subtree) := y.pieces.filterMap Piece.node?

end Yield

/-- A remembered outcome, with what was examined outside of the nodes that it yields. -/
structure Entry where
  outcome : Outcome
  reads : Footprint := .empty

/-- The nodes that an outcome brings. -/
def Outcome.nodes : Outcome → Array (Key × Subtree)
  | fail => #[]
  | ok _ y => y.nodes

/-! ### Frames -/

/-- What the innermost rule being matched has examined, and the nodes made for it. -/
structure Frame where
  reads : Footprint := .empty
  touched : Array (Key × Subtree) := #[]

namespace Frame

/-- Takes over an outcome. -/
def consume (f : Frame) (e : Entry) : Frame :=
  ⟨f.reads.merge e.reads, f.touched ++ e.outcome.nodes⟩

/-- The reads of the frame and of every node made for it. -/
def total (f : Frame) : Footprint := f.touched.foldl (fun reads t => t.2.charge reads) f.reads

/-- The reads of the frame and of the nodes made in vain, those that are not kept. -/
def settle (f : Frame) (kept : Yield) : Footprint :=
  let keys := kept.nodes.foldl (fun (s : Std.HashSet Key) n => s.insert n.1) {}
  f.touched.foldl (fun reads t => if keys.contains t.1 then reads else t.2.charge reads) f.reads

end Frame

/-! ### Evaluation -/

/-- The state of a parse. -/
structure State where
  memo : Std.HashMap Key Entry := {}
  frame : Frame := {}
  /-- The furthest offset at which something was tried. -/
  furthest : Nat := 0
  /-- What was tried there first. -/
  attempt : Bytes := []
  log : Log := #[]

/-- Why a parse is broken off. -/
inductive Stop where
  /-- Too many rules are being matched inside of each other. -/
  | exhausted (rule : Bytes) (depth : Nat)
  /-- Something was asked for behind the end of the text, or of a rule that does not exist. -/
  | beyond
  deriving DecidableEq, Repr

/-- Steps of a parse. -/
abbrev Eval := EStateM Stop State

/-- What a parse works on. -/
structure Context where
  grammar : Grammar
  source : Source

namespace Eval

/-- Takes what a scanner has seen into the frame. -/
def examine (l : Look) : Eval Unit :=
  modify fun s => { s with frame := { s.frame with reads := s.frame.reads.note l } }

/-- Takes an outcome into the frame. -/
def consume (e : Entry) : Eval Unit := modify fun s => { s with frame := s.frame.consume e }

/-- Notes that something was tried at an offset. -/
def attempt (name : Bytes) (o : Nat) : Eval Unit :=
  modify fun s =>
    if s.furthest < o || s.attempt.isEmpty then { s with furthest := o, attempt := name } else s

def log (level : Log.Level) (message : Bytes) : Eval Unit :=
  modify fun s => { s with log := s.log.push ⟨level, message⟩ }

/-- Starts a frame and gives the one around it. -/
def enter : Eval Frame := modifyGet fun s => (s.frame, { s with frame := {} })

/-- Goes back to the frame around and gives the one that has ended. -/
def leave (outer : Frame) : Eval Frame := modifyGet fun s => (s.frame, { s with frame := outer })

/-- The remembered outcome of a key, or the one computed now; either is taken into the frame. -/
def remember (key : Key) (compute : Eval Entry) : Eval Outcome := do
  match (← get).memo[key]? with
  | some e =>
    consume e
    return e.outcome
  | none =>
    let e ← compute
    modify fun s => { s with memo := s.memo.insert key e }
    consume e
    return e.outcome

/-- A scan as a match: it counts as examined, and what it reaches is handed on. -/
def scan (l : Look) (found : Nat → Outcome) : Eval Outcome := do
  examine l
  match l.reach with
  | .upTo stop => return found stop
  | .nothing => return .fail
  | .beyond => throw .beyond

end Eval

end Parse

end Packrat
