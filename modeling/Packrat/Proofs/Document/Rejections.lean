import Packrat.Proofs.Document.Texts
import Packrat.Proofs.Tree.Answers

/-!
Rejected edits.

An edit has one of two outcomes, and the counts tell them apart: it is patched into the tree, or the
whole text is parsed again (`Document.edit_cases`).  Nothing else comes out of an edit, whatever the
attempts to patch it ran into: `Document.edit` gives a document and no error.  If the text does not
parse, only the looks taken at the tree are left of the attempts, and they show in no answer
(`Tree.SameView.answers`).  So an edit that is rejected is harmless, however many edits were
rejected and accepted before (`Document.performAll_edit_rejected`).
-/

namespace Packrat

namespace Parser

open Parse

/-- What a parse answers does not depend on the log. -/
theorem parse_log (p : Parser) (source : Source) (log log' : Log) :
    (p.parse source log).1 = (p.parse source log').1 := by
  unfold parse parseWith
  split
  · rfl
  · simp only [EStateM.run]
    cases document ⟨p.grammar, source⟩ p.maxDepth p.grammar.start {} with
    | error e s => rfl
    | ok verdict s => cases verdict <;> rfl

/-- A parse fails over its text, its nesting or its start rule, and for no other reason. -/
theorem parse_ne_beyond (p : Parser) (source : Source) (log : Log) :
    (p.parse source log).1 ≠ .error .beyond := by
  intro h
  by_cases hstart : p.grammar.declares p.grammar.start = true ∨ Grammar.isToken p.grammar.start = true
  · have hresult := p.parse_fst source log hstart
    have hends := document_ends ⟨p.grammar, source⟩ p.maxDepth p.grammar.start
    unfold Ends at hends
    rw [h] at hresult
    cases hdoc : document ⟨p.grammar, source⟩ p.maxDepth p.grammar.start {} with
    | error e s =>
      rw [hdoc] at hresult hends
      obtain ⟨rule, depth, rfl⟩ := hends
      cases hresult
    | ok verdict s =>
      rw [hdoc] at hresult
      cases verdict with
      | failed => exact (nomatch hresult)
      | trailing o => exact (nomatch hresult)
      | matched tree reads => exact (nomatch hresult)
  · -- the start rule is looked up before anything is matched
    rw [parse, parseWith_undefined p source log hstart] at h
    cases h

end Parser

namespace Document

/-! ### Outcomes of an edit -/

theorem reparse_stats (d : Document) (log : Log) :
    (d.reparse log).1.stats = { d.stats with reparsed := d.stats.reparsed + 1 } := by
  unfold reparse
  dsimp only
  rw [Logged.bind_apply]
  cases (d.parser.parse d.source log).1 with
  | ok tree => rfl
  | error err => rfl

/-- The document that is parsed again if an edit is not patched. -/
def edited (d : Document) (e : Edit) : Document :=
  { d with text := e.into d.text, stats := { d.stats with total := d.stats.total + 1 } }

/-- While edits cannot be patched, an edit is followed by a parse of the whole text. -/
theorem edit_of_not_patchable {d : Document} (h : d.patchable = false) (e : Edit) :
    d.edit e = (d.edited e).reparse := by
  obtain ⟨p, text, scanned, tree, patchable, stale, stats⟩ := d
  cases h
  cases tree with
  | none => rfl
  | some tree => rfl

/-- An edit is patched, and the tree is not stale then; or the whole text is parsed again, with the
tree as it was but for the looks taken at it. -/
theorem edit_cases (d : Document) (e : Edit) (log : Log) :
    ((d.edit e log).1.stale = false ∧ (d.edit e log).1.tree.isSome = true
        ∧ (d.edit e log).1.stats = ⟨d.stats.total + 1, d.stats.patched + 1, d.stats.reparsed⟩)
      ∨ ∃ scanned tree log', Option.Rel Tree.SameView d.tree tree
        ∧ (d.edit e log).1 = ({ d.edited e with scanned, tree }.reparse log').1 := by
  obtain ⟨p, text, scanned, tree, patchable, stale, stats⟩ := d
  unfold Document.edit
  dsimp only
  cases tree with
  | none => exact .inr ⟨scanned, none, log, .none, rfl⟩
  | some tree =>
    cases hlive : patchable && !stale with
    | false => exact .inr ⟨scanned, some tree, log, .some (.refl tree), rfl⟩
    | true =>
      obtain ⟨rfl, rfl⟩ : patchable = true ∧ stale = false := by simpa using hlive
      dsimp only
      rw [Logged.bind_apply]
      rcases tryPatch_fst ⟨p, (e.clamp text.size).applyTo text, scanned.edit (e.clamp text.size),
        some tree, true, false, ⟨stats.total + 1, stats.patched, stats.reparsed⟩⟩ tree
        (e.clamp text.size) log with hfst | ⟨tree', log', -, hfst⟩
      · rw [hfst]
        exact .inr ⟨_, _, _, .some (candidates_sameView tree (e.clamp text.size)), rfl⟩
      · rw [hfst]
        exact .inl ⟨rfl, rfl, rfl⟩

/-- An edit counts once, as patched or as parsed again. -/
theorem edit_stats (d : Document) (e : Edit) (log : Log) :
    (d.edit e log).1.stats = ⟨d.stats.total + 1, d.stats.patched + 1, d.stats.reparsed⟩
      ∨ (d.edit e log).1.stats = ⟨d.stats.total + 1, d.stats.patched, d.stats.reparsed + 1⟩ := by
  rcases edit_cases d e log with ⟨-, -, hstats⟩ | ⟨scanned, tree, log', -, heq⟩
  · exact .inl hstats
  · rw [heq, reparse_stats]
    exact .inr rfl

/-! ### Rejected edits -/

/-- An edit that made `d'` of `d` was rejected and did no harm. -/
structure Rejected (d d' : Document) : Prop where
  /-- The present text does not parse. -/
  fails : ∃ err, err ≠ .beyond ∧ ∀ log, (d.parser.parse d'.source log).1 = .error err
  /-- The tree, if there is one, answers as before. -/
  tree : Option.Rel Tree.SameAnswers d.tree d'.tree
  /-- The next edit is followed by a parse of the whole text. -/
  next : ∀ e, d'.edit e = (d'.edited e).reparse

/-- An edit after which the tree is stale or there is none was rejected. -/
theorem edit_rejected {d d' : Document} {e : Edit} {log : Log} (hd' : d' = (d.edit e log).1)
    (h : d'.stale = true ∨ d'.tree = none) : Rejected d d' := by
  subst hd'
  rcases edit_cases d e log with ⟨hstale, htree, -⟩ | ⟨scanned, tree, log', hview, heq⟩
  · -- a patched tree is there and not stale
    rcases h with h | h
    · rw [hstale] at h
      cases h
    · rw [h] at htree
      cases htree
  · rw [heq] at h ⊢
    obtain ⟨tree', stats, -, hkept⟩ | ⟨err, stats, herr, hkept⟩ :=
      reparse_fst { d.edited e with scanned, tree } log'
    · rw [hkept] at h
      rcases h with h | h <;> cases h
    · rw [hkept]
      refine ⟨⟨err, ?_, fun log => (d.parser.parse_log _ log log').trans herr⟩, ?_,
        edit_of_not_patchable rfl⟩
      · rintro rfl
        exact d.parser.parse_ne_beyond _ _ herr
      · show Option.Rel Tree.SameAnswers d.tree tree
        generalize d.tree = before at hview
        cases hview with
        | none => exact .none
        | some hview => exact .some hview.answers

/-- **A rejected edit is harmless.** After any run of operations an edit gives a document, whatever
comes of it, and counts once as an edit and once as patched or as parsed again.  If the tree is stale
then or there is none, the text does not parse with the same grammar and limits, the tree answers every
question as it did before the edit, and the next edit is followed by a parse of the whole text. -/
theorem performAll_edit_rejected (p : Parser) (ops : List Op) (log log' : Log) (e : Edit)
    (d d' : Document) (hd : d = ((ofParser p).performAll ops log).1) (hd' : d' = (d.edit e log').1) :
    d'.stats.total = d.stats.total + 1
      ∧ (d'.stats.patched = d.stats.patched + 1 ∧ d'.stats.reparsed = d.stats.reparsed
        ∨ d'.stats.patched = d.stats.patched ∧ d'.stats.reparsed = d.stats.reparsed + 1)
      ∧ (d'.stale = true ∨ d'.tree = none → d.parser = p ∧ Rejected d d') := by
  have hparser : d.parser = p := by
    rw [hd, parser_performAll]
    rfl
  have hstats := edit_stats d e log'
  rw [← hd'] at hstats
  refine ⟨?_, ?_, fun h => ⟨hparser, edit_rejected hd' h⟩⟩
  · rcases hstats with h | h <;> rw [h]
  · rcases hstats with h | h <;> simp [h]

/-- The second sign of a patched pair is replaced by a star, which is no sign. -/
theorem performAll_pairRun_edit :
    (((ofParser pairParser).performAll pairRun #[]).1.edit ⟨2, 1, Bytes.ascii "*"⟩ #[]).1.stale = true := by
  cbv

/-- The star is rejected: the patched pair is still there, and the edits are counted. -/
theorem performAll_pairRun_rejected :
    ∃ d d', d = ((ofParser pairParser).performAll pairRun #[]).1
      ∧ d' = (d.edit ⟨2, 1, Bytes.ascii "*"⟩ #[]).1
      ∧ d'.stale = true ∧ d'.stats.total = d.stats.total + 1 ∧ Rejected d d' := by
  obtain ⟨htotal, -, hrejected⟩ := performAll_edit_rejected pairParser pairRun #[] #[]
    ⟨2, 1, Bytes.ascii "*"⟩ _ _ rfl rfl
  exact ⟨_, _, rfl, rfl, performAll_pairRun_edit, htotal,
    (hrejected (.inl performAll_pairRun_edit)).2⟩

end Document

end Packrat
