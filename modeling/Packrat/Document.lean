import Packrat.Parse.Parser
import Packrat.Tree.Patch
import Packrat.Tree.Query

/-!
Documents: a text and its tree, kept in step while the text is edited.

The text is there three times: the document has it, the scanner of its parser reads it, and the tree
belongs to it.  An edit goes into the text of the document at once, into that of the scanner before a
part of the tree is made anew, and into that of the tree together with the new part; a parse of the
whole text hands it to the scanner and to the tree.

An edit is patched into the smallest node made by a rule that encloses everything that has looked at
the edited place and can be made anew on its own; if there is none, the whole text is parsed
again.  A text that does not parse leaves the tree of an earlier text behind, which is then stale.
-/

namespace Packrat

/-- How the tree of a document was kept in step. -/
structure Document.Stats where
  total : Nat := 0
  patched : Nat := 0
  reparsed : Nat := 0
  deriving DecidableEq, Repr

/-- A node below the root that a rule has made. -/
structure Document.Region where
  start : Nat
  stop : Nat
  node : Nat
  rule : Nat
  deriving DecidableEq, Repr

/-- A text under edit with its tree. -/
structure Document where
  parser : Parser
  text : Text := #[]
  /-- The text that the scanner of the parser reads. -/
  scanned : Source := .empty
  tree : Option Tree := none
  /-- Whether the tree belongs to the text, so that edits can be patched into it. -/
  patchable : Bool := false
  /-- Whether the tree belongs to an earlier text, because the present one does not parse. -/
  stale : Bool := false
  stats : Document.Stats := {}

namespace Document

/-- A document without text. -/
def ofParser (p : Parser) : Document := { parser := p }

/-- The text with its lines. -/
def source (d : Document) : Source := .ofText d.text

/-- Replaces the whole text.  If it does not parse, there is no tree. -/
def parse (d : Document) (text : Text) : Logged (Except ParseError Unit × Document) := do
  let d := { d with
    text, scanned := .ofText text, stale := false
    stats := { d.stats with total := d.stats.total + 1 } }
  match ← d.parser.parse d.scanned with
  | .ok tree => return (.ok (), { d with tree := some tree, patchable := true })
  | .error e => return (.error e, { d with tree := none, patchable := false })

/-! ### Edits -/

/-- Whether a node can be made anew after an edit: a rule has made it, and it encloses the edit. -/
def encloses (s : Slot) (e : Edit) : Bool :=
  s.info.rule.isSome && s.info.invoked ≤ e.offset && e.stop ≤ s.info.stop

/-- Makes the first of the given nodes anew that can be; `none` if none of them can. -/
def patchFrom (d : Document) (tree : Tree) (e : Edit) :
    List Nat → Logged (Except ParseError (Option Tree))
  | [] => return .ok none
  | id :: above => do
    match tree.node? id with
    | none => patchFrom d tree e above
    | some s =>
      if encloses s e then
        let stop := Offset.move s.info.stop e.delta
        match ← d.parser.region d.scanned (s.info.rule.getD 0) s.info.invoked stop s.info.depth with
        | .error err => return .error err
        | .ok none => patchFrom d tree e above
        | .ok (some replacement) =>
          Log.write .debug
            (Bytes.ascii "Patched node " ++ Bytes.decimal id ++ Bytes.ascii " (" ++ s.info.type
              ++ Bytes.ascii ") with " ++ Bytes.decimal replacement.size ++ Bytes.ascii " nodes")
          return .ok (some (tree.graft id replacement e))
      else patchFrom d tree e above

/-- The nodes that an edit may be patched into, the smallest first: those below the root that are or
stand above everything that has looked at the edited place.  An insertion also touches whoever has
looked at the byte it is put in front of. -/
def candidates (tree : Tree) (e : Edit) : List Nat × Tree :=
  let touched := max e.stop (e.offset + 1)
  if tree.documentReads.intersects e.offset touched then ([], tree)
  else
    match tree.readers e.offset touched with
    | ([], tree) => ([], tree)
    | (id :: ids, tree) =>
      let lowest := ids.foldl (fun a b => (tree.commonAncestor? a b).getD tree.root) id
      (((tree.lineage? lowest).getD []).takeWhile (· != tree.root), tree)

/-- Patches an edit, which the scanner has seen, into the tree; gives the tree back, patched
or as it was left. -/
def tryPatch (d : Document) (tree : Tree) (e : Edit) : Logged (Bool × Tree) := do
  let (ids, tree) := candidates tree e
  match ← d.patchFrom tree e ids with
  | .ok (some tree) => return (true, tree)
  | .ok none => return (false, tree)
  | .error err =>
    Log.write .debug (Bytes.ascii "Region re-parse failed: " ++ Bytes.shown err.message)
    return (false, tree)

/-- How loud a failed parse is reported: a grammar that cannot be used at all is an error. -/
def failureLevel : ParseError → Log.Level
  | .undefinedStart _ => .error
  | _ => .info

/-- Parses the whole text again; if it does not parse, the tree is kept. -/
def reparse (d : Document) : Logged Document := do
  let d := { d with
    scanned := d.source, stats := { d.stats with reparsed := d.stats.reparsed + 1 } }
  match ← d.parser.parse d.scanned with
  | .ok tree => return { d with tree := some tree, stale := false, patchable := true }
  | .error e =>
    Log.write (failureLevel e) (Bytes.ascii "Keeping previous tree: " ++ Bytes.shown e.message)
    return { d with stale := d.tree.isSome, patchable := false }

/-- Applies an edit, cut to the text. -/
def edit (d : Document) (e : Edit) : Logged Document := do
  let e := e.clamp d.text.size
  let live := d.patchable && !d.stale
  let d := { d with
    text := e.applyTo d.text
    stats := { d.stats with total := d.stats.total + 1 } }
  match d.tree, live with
  | some tree, true =>
    let d := { d with scanned := d.scanned.edit e }
    match ← d.tryPatch tree e with
    | (true, tree) =>
      return { d with
        tree := some tree, patchable := true,
        stats := { d.stats with patched := d.stats.patched + 1 } }
    | (false, tree) => reparse { d with tree := some tree }
  | _, _ => d.reparse

/-- Applies edits from the highest offset down, so that the offsets of the others stay valid. -/
def edits (d : Document) (es : List Edit) : Logged Document :=
  (es.mergeSort fun a b => b.offset ≤ a.offset).foldlM edit d

/-! ### The rest -/

/-- Makes the next edit parse the whole text. -/
def invalidate (d : Document) : Document := { d with patchable := false }

/-- Empties the document; the scanner keeps its text until something is parsed. -/
def reset (d : Document) : Document := { parser := d.parser, scanned := d.scanned }

/-- The region of a node that a rule has made. -/
def region? (id : Nat) (s : Slot) : Option Region :=
  s.info.rule.map fun rule => ⟨s.info.start, s.info.stop, id, rule⟩

/-- The nodes below the root that rules have made, in the order of the text, while edits can be
patched; all nodes catch up. -/
def regions (d : Document) : List Region × Document :=
  match d.tree, d.patchable with
  | some tree, true =>
    let ids := tree.preorder
    let tree := ids.foldl Tree.catchUp tree
    let found := (ids.filter (· != tree.root)).filterMap fun id =>
      (tree.slots[id]?).bind (region? id)
    (found, { d with tree := some tree })
  | _, _ => ([], d)

end Document

end Packrat
