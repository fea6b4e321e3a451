import Packrat.Proofs.Document.Runs
import Packrat.Proofs.Parse.Transparency
import Packrat.Proofs.Text.Sources
import Packrat.Proofs.Tree.Graft
import Packrat.Proofs.Tree.Readers

/-!
The copies of the text stay in step.

A document has its text three times: for itself, in the scanner of its parser and in its tree, the
latter two with a table of the lines.  The copies are edited on different occasions: the scanner before
a patch is tried, the tree only if the patch succeeds, and a parse of the whole text hands it to both.

Main statement (`Document.performAll_inStep`): after every run the text is what the operations make of
it, a tree that is not stale belongs to this text, and while edits can be patched the scanner reads the
same text too; the tables of the lines are then those that would be made of the text anew.
-/

namespace Packrat

theorem Parser.source_of_parse {p : Parser} {source : Source} {log : Log} {tree : Tree}
    (h : (p.parse source log).1 = .ok tree) : tree.source = source := by
  obtain ⟨root, htree, -⟩ := parse_accepts h
  rw [htree, Tree.source_ofSubtree]

namespace Document

/-- The copies of the text agree wherever they are relied on. -/
structure InStep (d : Document) : Prop where
  /-- A tree that is not stale belongs to the text. -/
  tree : ∀ tree, d.tree = some tree → d.stale = false → tree.source = .ofText d.text
  /-- Edits are patched into a tree that is not stale, and the scanner reads the text. -/
  patchable : d.patchable = true → d.tree.isSome = true ∧ d.stale = false ∧ d.scanned = .ofText d.text

variable {d d' : Document} {op : Op}

theorem inStep_ofParser (p : Parser) : (ofParser p).InStep :=
  ⟨fun _ h => (nomatch h), fun h => (nomatch h)⟩

/-- A tree of the whole text that has just been made. -/
theorem inStep_of_parse {p : Parser} {text : Text} {tree : Tree} {log : Log}
    (h : (p.parse (.ofText text) log).1 = .ok tree) (stats : Stats) :
    InStep ⟨p, text, .ofText text, some tree, true, false, stats⟩ where
  tree := by
    rintro _ ⟨⟩ -
    exact p.source_of_parse h
  patchable := fun _ => ⟨rfl, rfl, rfl⟩

/-- Every step keeps the copies in step. -/
theorem Step.inStep (h : Step d op d') (hd : d.InStep) (hsize : d.text.size < Text.maxSize)
    (hsize' : d'.text.size < Text.maxSize) : d'.InStep := by
  cases h with
  | parsed htree => exact inStep_of_parse htree _
  | reparsed htree => exact inStep_of_parse htree _
  | refused _ => exact ⟨fun _ h => (nomatch h), fun h => (nomatch h)⟩
  | kept _ _ =>
    -- a tree that is kept is stale
    refine ⟨?_, fun h => (nomatch h)⟩
    rintro tree htree hstale
    cases htree
    cases hstale
  | @patched e tree id s replacement log stats htree hpatchable hstale _ _ _ _ =>
    have hfits : (e.clamp d.text.size).Fits d.text := Edit.clamp_fits hsize hsize'
    have hscanned : d.scanned.edit (e.clamp d.text.size) = .ofText (e.into d.text) := by
      rw [(hd.patchable hpatchable).2.2, Source.edit_ofText hfits]
      rfl
    refine ⟨?_, fun _ => ⟨rfl, rfl, hscanned⟩⟩
    rintro _ ⟨⟩ -
    rw [Tree.source_graft, (candidates_sameView tree _).source, hd.tree tree htree hstale,
      Source.edit_ofText hfits]
    rfl
  | invalidated => exact ⟨hd.tree, fun h => (nomatch h)⟩
  | emptied => exact ⟨fun _ h => (nomatch h), fun h => (nomatch h)⟩
  | @looked id =>
    constructor
    · rintro _ htree hstale
      obtain ⟨tree, hsome, rfl⟩ := Option.map_eq_some_iff.1 htree
      exact hd.tree tree hsome hstale
    · intro hpatchable
      obtain ⟨hsome, hrest⟩ := hd.patchable hpatchable
      exact ⟨by rwa [Option.isSome_map], hrest⟩

theorem inStep_performAll (p : Parser) {ops : List Op} (hshort : Short #[] ops) (log : Log) :
    ((ofParser p).performAll ops log).1.InStep :=
  performAll_induct (fun hd hsize hsize' h => h.inStep hd hsize hsize') (inStep_ofParser p)
    (show (0 : Nat) < Text.maxSize by decide) hshort log

/-- **The copies of the text stay in step.** After any run of operations, none of whose texts is too
long for its offsets, the text is that of the last parse with every later edit spliced in, cut to the
text.  While edits can be patched there is a tree, it is not stale, and the tree and the scanner have
this text and its lines; and a tree that is not stale always has this text. -/
theorem performAll_inStep (p : Parser) {ops : List Op} (hshort : Short #[] ops) (log : Log)
    (d : Document) (hd : d = ((ofParser p).performAll ops log).1) :
    d.text = ops.foldl Op.after #[]
      ∧ (d.patchable = true → ∃ tree, d.tree = some tree ∧ d.stale = false
          ∧ tree.source.text = d.text ∧ d.scanned.text = d.text
          ∧ tree.source.lines = .ofText d.text ∧ d.scanned.lines = .ofText d.text)
      ∧ ∀ tree, d.tree = some tree → d.stale = false → tree.source.text = d.text := by
  subst hd
  have hin := inStep_performAll p hshort log
  refine ⟨performAll_text (ofParser p) ops log, fun hpatchable => ?_, fun tree htree hstale => ?_⟩
  · obtain ⟨hsome, hstale, hscanned⟩ := hin.patchable hpatchable
    obtain ⟨tree, htree⟩ := Option.isSome_iff_exists.1 hsome
    have hsource := hin.tree tree htree hstale
    exact ⟨tree, htree, hstale, by rw [hsource]; rfl, by rw [hscanned]; rfl, by rw [hsource]; rfl,
      by rw [hscanned]; rfl⟩
  · rw [hin.tree tree htree hstale]
    rfl

/-! ### A patched pair -/

/-- Two signs: `s <- a a` and `a <- '+' / '-'`. -/
def pairGrammar : Grammar where
  name := Bytes.ascii "pair"
  rules := #[
    { name := Bytes.ascii "s", nodeType := Bytes.ascii "s", isFragment := false, description := []
      pattern := .seq none [.atom none (.rule (Bytes.ascii "a")), .atom none (.rule (Bytes.ascii "a"))] },
    { name := Bytes.ascii "a", nodeType := Bytes.ascii "a", isFragment := false, description := []
      pattern := .choice none [
        .atom none (.literal (Bytes.ascii "+")), .atom none (.literal (Bytes.ascii "-"))] }]

def pairParser : Parser where
  grammar := pairGrammar
  maxDepth := 2
  leftRecursive_eq := by decide +kernel

/-- A text is parsed, and its second sign is edited; the edit reaches beyond the end of the text. -/
def pairRun : List Op := [.parse (Bytes.ascii "+\n+").toArray, .edit ⟨2, 7, Bytes.ascii "-"⟩]

theorem performAll_pairRun :
    ((ofParser pairParser).performAll pairRun #[]).1.patchable = true
      ∧ ((ofParser pairParser).performAll pairRun #[]).1.stats = ⟨2, 1, 0⟩ := by
  cbv

theorem short_pairRun : Short #[] pairRun := by
  unfold Short
  decide +kernel

/-- The edit is patched into the tree, and the text, the tree and the scanner all have `+`, a new line
and `-`. -/
theorem performAll_pairRun_inStep :
    Short #[] pairRun ∧ ∃ tree, ((ofParser pairParser).performAll pairRun #[]).1.tree = some tree
      ∧ ((ofParser pairParser).performAll pairRun #[]).1.stats.patched = 1
      ∧ tree.source.text = (Bytes.ascii "+\n-").toArray
      ∧ ((ofParser pairParser).performAll pairRun #[]).1.scanned.text = (Bytes.ascii "+\n-").toArray
      ∧ ((ofParser pairParser).performAll pairRun #[]).1.scanned.lines
          = .ofText (Bytes.ascii "+\n-").toArray := by
  obtain ⟨hpatchable, hstats⟩ := performAll_pairRun
  obtain ⟨htext, hstep, -⟩ := performAll_inStep pairParser short_pairRun #[] _ rfl
  obtain ⟨tree, htree, -, hsource, hscanned, -, hlines⟩ := hstep hpatchable
  rw [htext] at hsource hscanned hlines
  exact ⟨short_pairRun, tree, htree, by rw [hstats], hsource, hscanned, hlines⟩

end Document

end Packrat
