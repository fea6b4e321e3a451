import Packrat.Proofs.Parse.Memo
import Packrat.Proofs.Tree.Plant
import Mathlib

/-!
Remembering outcomes does not show.

A document is accepted if its start has a derivation at the beginning of the text that leaves only
ignored text behind (`Accepts`).  Which tree it has, and what was examined outside of the tree, is
said by the derivation alone; there is one such tree at most (`Accepts.unique`).

Main statement: a parse that does not go too deep gives this tree, numbered in preorder, if the
document is accepted, and reports a mishap if it is not (`Parser.parse_eq_derivation`).

Parses of fixed texts are evaluated by `cbv`, here and in the modules that build on this one.  The
equations of the library functions that are unfolded on the way are spread over all of Mathlib, which is
why it is imported as a whole in this place, and in this place only.
-/

namespace Packrat

namespace Parse

/-- How far the text that may follow a document goes, and the looks that it takes to find out. -/
def restOf (ctx : Context) (o : Nat) : Nat × List Look :=
  if ctx.grammar.skipsIgnored then skipped ctx o
  else (ctx.source.text.scanWhile Byte.isBlank o, [Scan.blanks ctx.source.text o])

/-- A derivation of the start reaches up to text that may follow; it makes the tree, and the rest of
the reads is left to the document. -/
def Accepts (ctx : Context) (start : Bytes) (root : Subtree) (reads : Footprint) : Prop :=
  ∃ stop y tr, Derives ctx (.name start) 0 (.ok stop y) tr
    ∧ ctx.source.size ≤ (restOf ctx stop).1
    ∧ root = (Parser.rootOf ctx stop y).flat
    ∧ reads = (Frame.after {} (tr ++ (restOf ctx stop).2.map .saw)).settle y

/-- A document has one tree at most. -/
theorem Accepts.unique {ctx : Context} {start : Bytes} {root root' : Subtree}
    {reads reads' : Footprint} (h : Accepts ctx start root reads)
    (h' : Accepts ctx start root' reads') : root = root' ∧ reads = reads' := by
  obtain ⟨stop, y, tr, hd, -, rfl, rfl⟩ := h
  obtain ⟨stop', y', tr', hd', -, rfl, rfl⟩ := h'
  obtain ⟨hout, rfl⟩ := hd.unique hd'
  cases hout
  exact ⟨rfl, rfl⟩

theorem skipRest_apply {ctx : Context} {o : Nat} (ho : o ≤ ctx.source.size) (s : State) :
    Parser.skipRest ctx o s = .ok (restOf ctx o).1
      { s with frame := s.frame.after ((restOf ctx o).2.map .saw) } := by
  unfold Parser.skipRest restOf
  split
  · exact skip_apply ho s
  · rfl

/-- The node around what a fragment yields. -/
def programInfo (ctx : Context) (stop : Nat) : NodeInfo :=
  { type := Bytes.ascii "Program", line := (ctx.source.position 0).1,
    column := (ctx.source.position 0).2, stop }

/-- Depths make no difference to the root of a document but for the depths in it. -/
theorem rootOf_flat (ctx : Context) (stop : Nat) (y : Yield) :
    (Parser.rootOf ctx stop y.flat).flat = (Parser.rootOf ctx stop y).flat := by
  have hwrap : (y.flat.wrap ctx (programInfo ctx stop)).flat = (y.wrap ctx (programInfo ctx stop)).flat :=
    Yield.wrap_flat ctx y rfl
  cases y with
  | one p =>
    cases p with
    | node key tree => exact Subtree.flat_flat tree
    | text bytes o => exact hwrap
  | many ps => exact hwrap

/-- How a derivation judges a document. -/
def Judged (ctx : Context) (start : Bytes) : Parser.Verdict → Prop
  | .matched tree reads => Accepts ctx start tree.flat reads
  | _ => ¬∃ root reads, Accepts ctx start root reads

/-- The verdict on a document is that of its derivation. -/
theorem document_ends (ctx : Context) (maxDepth : Nat) (start : Bytes) :
    Ends (Parser.document ctx maxDepth start) {} fun verdict _ => Judged ctx start verdict := by
  unfold Parser.document
  refine Ends.bind _ (matchName_tracks (invoke_tracks ctx maxDepth 0) (Nat.zero_le _) {}
    (sound_empty ctx)) ?_
  rintro out s₁ ⟨-, tr, hd, hframe⟩
  cases out with
  | fail =>
    refine .of_eq rfl ?_
    rintro ⟨root, reads, stop, y, tr', hd', -⟩
    cases (hd.unique hd').1
  | ok stop y =>
    have hb := hd.bounds (Nat.zero_le _) rfl
    dsimp only
    refine Ends.bind (fun rest s₂ => rest = (restOf ctx stop).1 ∧
        s₂ = { s₁ with frame := s₁.frame.after ((restOf ctx stop).2.map .saw) })
      (.of_eq (skipRest_apply hb.2 s₁) ⟨rfl, rfl⟩) ?_
    rintro _ _ ⟨rfl, rfl⟩
    split
    · next hlt =>
      refine .of_eq rfl ?_
      rintro ⟨root, reads, stop', y', tr', hd', hrest, -⟩
      cases (hd.unique hd').1
      omega
    · next hge =>
      refine .of_eq rfl ⟨stop, y.flat, tr, hd, by omega, (rootOf_flat ctx stop y).symm, ?_⟩
      rw [← Frame.settle_flat, Frame.flat_after_saw, hframe, Frame.after_append,
        show (({} : State).frame.flat) = {} from Frame.flat_empty]

end Parse

namespace Parser

open Parse

/-- What a parse answers when its document has been matched. -/
def answer (p : Parser) (source : Source) : EStateM.Result Stop State Verdict → Except ParseError Tree
  | .error e _ => .error (p.stopError e)
  | .ok .failed s =>
    let ahead := source.slice s.furthest (s.furthest + snippetLength)
    .error (.unexpected (mishap source s.furthest s.attempt (ahead.takeWhile (· != Byte.newline))))
  | .ok (.trailing o) s =>
    .error (.trailing (mishap source o s.attempt (source.slice o (o + snippetLength))))
  | .ok (.matched tree reads) _ => .ok (Tree.ofSubtree source reads tree)

/-- A parse that starts with a rule or token answers what its document gives. -/
theorem parseWith_fst (p : Parser) {name : Bytes} (source : Source) (log : Log)
    (hstart : p.grammar.declares name = true ∨ Grammar.isToken name = true) :
    (p.parseWith name source log).1
      = p.answer source (document ⟨p.grammar, source⟩ p.maxDepth name {}) := by
  have hdefined : (!p.grammar.declares name && !Grammar.isToken name) = false := by
    rcases hstart with h | h <;> simp [h]
  unfold parseWith
  rw [hdefined]
  simp only [EStateM.run, Bool.false_eq_true, if_false]
  cases document ⟨p.grammar, source⟩ p.maxDepth name {} with
  | error e s => rfl
  | ok verdict s => cases verdict <;> rfl

/-- A parse that starts with anything else says so. -/
theorem parseWith_undefined (p : Parser) {name : Bytes} (source : Source) (log : Log)
    (hstart : ¬(p.grammar.declares name = true ∨ Grammar.isToken name = true)) :
    (p.parseWith name source log).1 = .error (.undefinedStart name) := by
  rw [not_or, Bool.not_eq_true, Bool.not_eq_true] at hstart
  unfold parseWith
  rw [hstart.1, hstart.2]
  rfl

/-- What a parse answers, as far as it depends on the verdict. -/
theorem parse_fst (p : Parser) (source : Source) (log : Log)
    (hstart : p.grammar.declares p.grammar.start = true ∨ Grammar.isToken p.grammar.start = true) :
    match document ⟨p.grammar, source⟩ p.maxDepth p.grammar.start {} with
    | .error e _ => (p.parse source log).1 = .error (p.stopError e)
    | .ok .failed _ => ∃ m, (p.parse source log).1 = .error (.unexpected m)
    | .ok (.trailing _) _ => ∃ m, (p.parse source log).1 = .error (.trailing m)
    | .ok (.matched tree reads) _ =>
      (p.parse source log).1 = .ok (Tree.ofSubtree source reads tree) := by
  rw [parse, parseWith_fst p source log hstart]
  cases document ⟨p.grammar, source⟩ p.maxDepth p.grammar.start {} with
  | error e s => rfl
  | ok verdict s =>
    cases verdict with
    | failed => exact ⟨_, rfl⟩
    | trailing o => exact ⟨_, rfl⟩
    | matched tree reads => rfl

/-- A tree that a parse returns is that of a derivation. -/
theorem parse_accepts {p : Parser} {source : Source} {log : Log} {tree : Tree}
    (h : (p.parse source log).1 = .ok tree) :
    ∃ root, tree = Tree.ofSubtree source tree.documentReads root
      ∧ Accepts ⟨p.grammar, source⟩ p.grammar.start root.flat tree.documentReads := by
  by_cases hstart : p.grammar.declares p.grammar.start = true ∨ Grammar.isToken p.grammar.start = true
  · have hjudged := document_ends ⟨p.grammar, source⟩ p.maxDepth p.grammar.start
    have hresult := p.parse_fst source log hstart
    unfold Ends at hjudged
    rw [h] at hresult
    cases hdoc : document ⟨p.grammar, source⟩ p.maxDepth p.grammar.start {} with
    | error e s =>
      rw [hdoc] at hresult
      cases hresult
    | ok verdict s =>
      rw [hdoc] at hjudged hresult
      cases verdict with
      | failed => exact (nomatch hresult)
      | trailing o => exact (nomatch hresult)
      | matched root reads =>
        cases hresult
        rw [Tree.documentReads_ofSubtree]
        exact ⟨root, rfl, hjudged⟩
  · -- without a start there is no tree
    rw [parse, parseWith_undefined p source log hstart] at h
    cases h

/-- **Remembering does not show.** A parse whose start is a rule or a token, and which does not go too
deep, returns a tree if and only if the start has a derivation at the beginning of the text that leaves
only ignored text behind.  The tree is that of the derivation: nodes, values, children, positions and the
reads of every node and of the document.  If there is no such derivation, the parse reports where it has
failed. -/
theorem parse_eq_derivation (p : Parser) (source : Source) (log : Log)
    (hstart : p.grammar.declares p.grammar.start = true ∨ Grammar.isToken p.grammar.start = true)
    (hdeep : ∀ limit rule depth, (p.parse source log).1 ≠ .error (.exhausted limit rule depth)) :
    ((∃ tree, (p.parse source log).1 = .ok tree)
        ↔ ∃ root reads, Accepts ⟨p.grammar, source⟩ p.grammar.start root reads)
      ∧ (∀ tree, (p.parse source log).1 = .ok tree → tree.source = source
          ∧ Accepts ⟨p.grammar, source⟩ p.grammar.start tree.asSubtree.flat tree.documentReads)
      ∧ ((¬∃ root reads, Accepts ⟨p.grammar, source⟩ p.grammar.start root reads) →
          ∃ m, (p.parse source log).1 = .error (.unexpected m)
            ∨ (p.parse source log).1 = .error (.trailing m)) := by
  have hjudged := document_ends ⟨p.grammar, source⟩ p.maxDepth p.grammar.start
  have hresult := p.parse_fst source log hstart
  unfold Ends at hjudged
  generalize (p.parse source log).1 = r at hdeep hresult ⊢
  cases hdoc : document ⟨p.grammar, source⟩ p.maxDepth p.grammar.start {} with
  | error e s =>
    rw [hdoc] at hjudged hresult
    obtain ⟨rule, depth, rfl⟩ := hjudged
    exact absurd hresult (hdeep p.maxDepth rule depth)
  | ok verdict s =>
    rw [hdoc] at hjudged hresult
    cases verdict with
    | failed =>
      obtain ⟨m, rfl⟩ := hresult
      exact ⟨⟨fun ⟨_, h⟩ => (nomatch h), fun h => absurd h hjudged⟩, fun _ h => (nomatch h),
        fun _ => ⟨m, .inl rfl⟩⟩
    | trailing o =>
      obtain ⟨m, rfl⟩ := hresult
      exact ⟨⟨fun ⟨_, h⟩ => (nomatch h), fun h => absurd h hjudged⟩, fun _ h => (nomatch h),
        fun _ => ⟨m, .inr rfl⟩⟩
    | matched tree reads =>
      subst hresult
      have haccepts : Accepts ⟨p.grammar, source⟩ p.grammar.start tree.flat reads := hjudged
      refine ⟨⟨fun _ => ⟨_, _, haccepts⟩, fun _ => ⟨_, rfl⟩⟩, ?_, fun h => absurd ⟨_, _, haccepts⟩ h⟩
      intro tree' htree'
      cases htree'
      rw [Tree.asSubtree_ofSubtree, Tree.documentReads_ofSubtree]
      exact ⟨Tree.source_ofSubtree source reads tree, haccepts⟩

/-! ### A grammar that remembers -/

/-- The alternatives of `s` begin with the same rule: `s <- a '-' / a '*'` and `a <- '+'`. -/
def twiceGrammar : Grammar where
  name := Bytes.ascii "twice"
  rules := #[
    { name := Bytes.ascii "s", nodeType := Bytes.ascii "s", isFragment := false, description := []
      pattern := .choice none [
        .seq none [.atom none (.rule (Bytes.ascii "a")), .atom none (.literal (Bytes.ascii "-"))],
        .seq none [.atom none (.rule (Bytes.ascii "a")), .atom none (.literal (Bytes.ascii "*"))]] },
    { name := Bytes.ascii "a", nodeType := Bytes.ascii "a", isFragment := false, description := []
      pattern := .atom none (.literal (Bytes.ascii "+")) }]

def twiceParser : Parser where
  grammar := twiceGrammar
  maxDepth := 2
  leftRecursive_eq := by decide +kernel

theorem parse_twice_isOk :
    (twiceParser.parse (.ofBytes (Bytes.ascii "+*")) #[]).1.isOk = true := by cbv

/-- The second alternative takes over what the first one has left in the memory, and the tree is that
of a derivation. -/
theorem parse_twice_eq_derivation :
    ∃ tree, (twiceParser.parse (.ofBytes (Bytes.ascii "+*")) #[]).1 = .ok tree
      ∧ Accepts ⟨twiceGrammar, .ofBytes (Bytes.ascii "+*")⟩ twiceGrammar.start tree.asSubtree.flat
          tree.documentReads := by
  have hok := parse_twice_isOk
  have hspec := parse_eq_derivation twiceParser (.ofBytes (Bytes.ascii "+*")) #[] (.inl (by cbv))
    (fun limit rule depth h => by rw [h] at hok; cases hok)
  cases hparse : (twiceParser.parse (.ofBytes (Bytes.ascii "+*")) #[]).1 with
  | error e => rw [hparse] at hok; cases hok
  | ok tree => exact ⟨tree, rfl, (hspec.2.1 tree hparse).2⟩

end Parser

end Packrat
