import Packrat.Proofs.Parse.Walk

/-!
Where a parse says that it has failed.

The matcher keeps the furthest offset at which something was tried, and what was tried there first.  It
notes an attempt only when it starts a body, so what is taken from the memory is noted once, however often
it is asked for.  This makes no difference: when an outcome has been stored, everything that was tried for
it has been passed (`Passed`), and trying it again changes nothing.  So the walk of the matcher reaches
what is reached if all calls are tried in turn (`walkAll_furthest`), which is the first call at the
furthest offset (`reachAll_first`).

Main statement (`Parser.parseWith_unexpected`): if the start is derived to fail, and the parse does not go
too deep, the mishap that it reports is at the first of the furthest calls.
-/

namespace Packrat

namespace Parse

open Call (partsAll walkAll inner_sublist mem_parts_self)

/-! ### Attempts one after the other -/

/-- What is reached if calls are tried in turn. -/
def reachAll (p : Nat × Bytes) (ps : List Call) : Nat × Bytes :=
  ps.foldl (fun p c => reach p c.name c.offset) p

/-- Trying this call changes nothing any more. -/
def Passed (p : Nat × Bytes) (c : Call) : Prop := p.2 ≠ [] ∧ c.offset ≤ p.1

/-- A call is the first of the furthest: those before it do not get as far, those behind it no further. -/
def FirstFurthest (ps : List Call) (c : Call) : Prop :=
  ∃ before after, ps = before ++ c :: after ∧ (∀ c' ∈ before, c'.offset < c.offset)
    ∧ ∀ c' ∈ after, c'.offset ≤ c.offset

variable {p : Nat × Bytes} {c c' : Call} {ps cs : List Call} {j : List Act}

theorem reach_of_passed (h : Passed p c) : reach p c.name c.offset = p := by
  have hname : p.2.isEmpty = false := by simpa using h.1
  have hle := h.2
  unfold reach
  rw [hname, Bool.or_false, if_neg]
  rw [decide_eq_true_eq]
  omega

theorem passed_reach (h : c.name ≠ []) (p : Nat × Bytes) : Passed (reach p c.name c.offset) c := by
  unfold reach
  split
  · exact ⟨h, Nat.le_refl _⟩
  · next hp =>
    rw [Bool.or_eq_true, not_or, decide_eq_true_eq, Nat.not_lt, List.isEmpty_iff] at hp
    exact ⟨hp.2, hp.1⟩

/-- What has been passed stays passed. -/
theorem Passed.reach (h : Passed p c) {name : Bytes} (hname : name ≠ []) (o : Nat) :
    Passed (reach p name o) c := by
  have hle := h.2
  have hempty : p.2.isEmpty = false := by simpa using h.1
  unfold Parse.reach
  rw [hempty, Bool.or_false]
  split
  · next hlt =>
    rw [decide_eq_true_eq] at hlt
    exact ⟨hname, by dsimp only; omega⟩
  · exact h

theorem Passed.reachAll (h : Passed p c) (hnames : ∀ c' ∈ ps, c'.name ≠ []) :
    Passed (reachAll p ps) c := by
  induction ps generalizing p with
  | nil => exact h
  | cons d ps ih =>
    have hrest : ∀ c' ∈ ps, c'.name ≠ [] := fun c' hc' => hnames c' (List.mem_cons_of_mem _ hc')
    exact ih (h.reach (hnames d List.mem_cons_self) _) hrest

theorem reachAll_of_passed (h : ∀ c ∈ ps, Passed p c) : reachAll p ps = p := by
  induction ps with
  | nil => rfl
  | cons c ps ih =>
    rw [reachAll, List.foldl_cons, reach_of_passed (h c List.mem_cons_self)]
    exact ih fun c' hc' => h c' (List.mem_cons_of_mem _ hc')

/-- Whatever is tried is passed from then on. -/
theorem passed_reachAll (hnames : ∀ c ∈ ps, c.name ≠ []) (p : Nat × Bytes) :
    ∀ c ∈ ps, Passed (reachAll p ps) c := by
  induction ps generalizing p with
  | nil => exact fun _ h => nomatch h
  | cons d ps ih =>
    have hrest : ∀ c ∈ ps, c.name ≠ [] := fun c hc => hnames c (List.mem_cons_of_mem _ hc)
    intro c hc
    rcases List.mem_cons.1 hc with rfl | hc
    · exact (passed_reach (hnames c List.mem_cons_self) p).reachAll hrest
    · exact ih hrest _ c hc

theorem reachAll_append (p : Nat × Bytes) (ps ps' : List Call) :
    reachAll p (ps ++ ps') = reachAll (reachAll p ps) ps' := List.foldl_append ..

/-- If something is tried, the first of the furthest calls is reached. -/
theorem reachAll_first (hnames : ∀ c ∈ ps, c.name ≠ []) (hne : ps ≠ []) :
    ∃ c, FirstFurthest ps c ∧ reachAll (0, []) ps = (c.offset, c.name) := by
  -- the induction adds a call at the end: it is the first of the furthest if it gets further
  induction ps using List.reverseRecOn with
  | nil => exact absurd rfl hne
  | append_singleton ps d ih =>
    rw [reachAll_append]
    change ∃ c, _ ∧ reach (reachAll (0, []) ps) d.name d.offset = _
    by_cases hps : ps = []
    · subst hps
      exact ⟨d, ⟨[], [], rfl, fun _ h => (nomatch h), fun _ h => nomatch h⟩, by simp [reachAll, reach]⟩
    · have hnames' : ∀ c ∈ ps, c.name ≠ [] := fun c hc => hnames c (List.mem_append_left _ hc)
      obtain ⟨c, ⟨before, after, rfl, hbefore, hafter⟩, hreach⟩ := ih hnames' hps
      rw [hreach]
      have hempty : c.name.isEmpty = false := by
        simpa using hnames' c (List.mem_append_right _ List.mem_cons_self)
      by_cases hlt : c.offset < d.offset
      · refine ⟨d, ⟨before ++ c :: after, [], rfl, fun c' hc' => ?_, fun _ h => nomatch h⟩, ?_⟩
        · rcases List.mem_append.1 hc' with hc' | hc'
          · exact (hbefore c' hc').trans hlt
          · rcases List.mem_cons.1 hc' with rfl | hc'
            · exact hlt
            · exact (hafter c' hc').trans_lt hlt
        · simp [reach, hlt]
      · refine ⟨c, ⟨before, after ++ [d], by simp, hbefore, fun c' hc' => ?_⟩, ?_⟩
        · rcases List.mem_append.1 hc' with hc' | hc'
          · exact hafter c' hc'
          · obtain rfl := List.mem_singleton.1 hc'
            exact Nat.not_lt.1 hlt
        · simp [reach, hlt, hempty]

/-! ### The walk of the matcher -/

/-- Everything that was tried for an outcome that is stored has been passed. -/
def AllPassed (ps : List Call) (j : List Act) : Prop :=
  ∀ c ∈ ps, ∀ key, c.key? = some key → .stored key ∈ j → ∀ c' ∈ c.parts, Passed (furthest j) c'

theorem furthest_append (j j' : List Act) : furthest (j ++ j') = j'.foldl Act.reach (furthest j) :=
  List.foldl_append ..

/-- Calls that have a name, and of which there is one under a key. -/
structure Coherent (ps : List Call) : Prop where
  name_ne_nil : ∀ c ∈ ps, c.name ≠ []
  key_inj : ∀ c ∈ ps, ∀ c' ∈ ps, ∀ key, c.key? = some key → c'.key? = some key → c = c'

/-- One more attempt, and perhaps the start of a body, leave passed what is passed. -/
theorem AllPassed.tried (h : AllPassed ps j) (hps : Coherent ps) {c : Call} (hc : c ∈ ps)
    {acts : List Act} (hacts : acts.foldl Act.reach (furthest j) = reach (furthest j) c.name c.offset)
    (hstored : ∀ key, .stored key ∉ acts) : AllPassed ps (j ++ acts) := by
  intro d hd key hkey hmem c' hc'
  rw [furthest_append, hacts]
  have hmem' := (List.mem_append.1 hmem).resolve_right (hstored key)
  exact (h d hd key hkey hmem' c' hc').reach (hps.name_ne_nil c hc) _

mutual

/-- Passing by what is stored, the matcher gets as far as it does trying everything. -/
theorem walk_furthest (hps : Coherent ps) : ∀ (c : Call) {j : List Act}, c.parts ⊆ ps → AllPassed ps j →
    furthest (c.walk j) = reachAll (furthest j) c.parts ∧ AllPassed ps (c.walk j)
  | .unknown name o, j, hsub, h => by
    rw [Call.walk, furthest_append]
    exact ⟨rfl, h.tried hps (hsub (mem_parts_self _)) rfl fun _ hmem => nomatch hmem⟩
  | .body name start key inner, j, hsub, h => by
    have hc : Call.body name start key inner ∈ ps := hsub (mem_parts_self _)
    rw [Call.walk]
    split
    · next hstored => exact ⟨(reachAll_of_passed (h _ hc key rfl hstored)).symm, h⟩
    · have hsub' : partsAll inner ⊆ ps :=
        List.Subset.trans (inner_sublist name start key inner).subset hsub
      have h₁ : AllPassed ps (j ++ [.started key, .tried name start]) :=
        h.tried hps hc rfl fun _ hmem => nomatch hmem
      obtain ⟨hreach, h₂⟩ := walkAll_furthest hps inner hsub' h₁
      rw [furthest_append] at hreach
      generalize walkAll inner (j ++ [.started key, .tried name start]) = j₂ at hreach h₂ ⊢
      have hparts : furthest (j₂ ++ [.stored key])
          = reachAll (furthest j) (Call.body name start key inner).parts := by
        rw [furthest_append, Call.parts]
        exact hreach
      refine ⟨hparts, fun d hd k hk hstored c' hc' => ?_⟩
      rcases List.mem_append.1 hstored with hstored | hstored
      · rw [furthest_append]
        exact h₂ d hd k hk hstored c' hc'
      · -- the call that has just been stored: all its parts have been tried
        obtain rfl : k = key := Act.stored.inj (List.mem_singleton.1 hstored)
        rw [hps.key_inj d hd _ hc k hk rfl] at hc'
        rw [hparts]
        exact passed_reachAll (fun c hc => hps.name_ne_nil c (hsub hc)) _ c' hc'

theorem walkAll_furthest (hps : Coherent ps) : ∀ (cs : List Call) {j : List Act}, partsAll cs ⊆ ps →
    AllPassed ps j →
    furthest (walkAll cs j) = reachAll (furthest j) (partsAll cs) ∧ AllPassed ps (walkAll cs j)
  | [], _, _, h => ⟨rfl, h⟩
  | c :: cs, j, hsub, h => by
    obtain ⟨hreach₁, h₁⟩ :=
      walk_furthest hps c (List.Subset.trans (List.subset_append_left _ _) hsub) h
    obtain ⟨hreach₂, h₂⟩ :=
      walkAll_furthest hps cs (List.Subset.trans (List.subset_append_right _ _) hsub) h₁
    exact ⟨by rw [walkAll, hreach₂, hreach₁, partsAll, reachAll_append], h₂⟩

end

/-- The names of a grammar are not empty, and those it refers to neither. -/
def Named (g : Grammar) : Prop :=
  ∀ rule ∈ g.rules, rule.name ≠ [] ∧ ∀ name ∈ rule.pattern.references, name ≠ []

theorem tokenName_ne_nil (kind : TokenKind) : kind.name ≠ [] := by
  cases kind <;> decide

theorem Calls.name_ne_nil {ctx : Context} {g : Goal} {o : Nat} (h : Calls ctx g o cs)
    (hnamed : Named ctx.grammar) (ho : o ≤ ctx.source.size) (hg : ∀ name ∈ g.references, name ≠ []) :
    ∀ c ∈ partsAll cs, c.name ≠ [] := by
  refine h.forall_parts (fun rule hrule => (hnamed rule hrule).2) ?_ ?_ ?_ ho hg
  · exact fun _ hrule _ => (hnamed _ (Array.mem_of_getElem? hrule)).1
  · exact fun {kind o} _ => tokenName_ne_nil kind
  · exact fun _ hname => hname

/-- The walk through the calls of a goal reaches the first of the furthest calls. -/
theorem Calls.furthest_walkAll {ctx : Context} {g : Goal} {o : Nat} (h : Calls ctx g o cs)
    (hnamed : Named ctx.grammar) (ho : o ≤ ctx.source.size) (hg : ∀ name ∈ g.references, name ≠ [])
    (hne : partsAll cs ≠ []) :
    ∃ c, FirstFurthest (partsAll cs) c ∧ furthest (walkAll cs []) = (c.offset, c.name) := by
  have hnames := h.name_ne_nil hnamed ho hg
  have hps : Coherent (partsAll cs) := ⟨hnames, fun c hc c' hc' key => h.key_inj ho hc hc'⟩
  have hempty : AllPassed (partsAll cs) [] := fun _ _ _ _ hstored => nomatch hstored
  obtain ⟨hreach, -⟩ := walkAll_furthest hps cs (fun _ hc => hc) hempty
  obtain ⟨c, hfirst, hc⟩ := reachAll_first hnames hne
  exact ⟨c, hfirst, hreach.trans hc⟩

/-- A name is one call, whatever it stands for. -/
theorem Calls.name_ne_empty {ctx : Context} {name : Bytes} {o : Nat}
    (h : Calls ctx (.name name) o cs) : partsAll cs ≠ [] := by
  cases h with
  | name_rule _ h => cases h; exact List.cons_ne_nil _ _
  | name_token _ _ _ h => cases h; exact List.cons_ne_nil _ _
  | name_fail _ _ => exact List.cons_ne_nil _ _

end Parse

/-! ### Parses -/

namespace Parser

open Parse

variable {p : Parser} {name : Bytes} {source : Source} {log : Log}

/-- What a parse can be asked for has a name. -/
theorem start_ne_nil (hnamed : Named p.grammar)
    (hstart : p.grammar.declares name = true ∨ Grammar.isToken name = true) : name ≠ [] := by
  rcases hstart with h | h
  · unfold Grammar.declares Grammar.find? at h
    rw [Array.findIdx?_isSome, Array.any_eq_true'] at h
    obtain ⟨rule, hrule, heq⟩ := h
    exact eq_of_beq heq ▸ (hnamed rule hrule).1
  · unfold Grammar.isToken at h
    cases hkind : TokenKind.ofName? name with
    | none => rw [hkind] at h; cases h
    | some kind =>
      have heq := List.find?_some hkind
      exact eq_of_beq heq ▸ tokenName_ne_nil kind

/-- The start of a parse that reports something unexpected is derived to fail. -/
theorem derives_fail_of_unexpected {m : Mishap}
    (h : (p.parseWith name source log).1 = .error (.unexpected m)) :
    ∃ tr, Derives ⟨p.grammar, source⟩ (.name name) 0 .fail tr := by
  by_cases hstart : p.grammar.declares name = true ∨ Grammar.isToken name = true
  · rw [parseWith_fst p source log hstart] at h
    cases hdoc : document ⟨p.grammar, source⟩ p.maxDepth name {} with
    | error e s =>
      rw [hdoc] at h
      cases e <;> cases h
    | ok verdict s =>
      rw [hdoc] at h
      cases verdict with
      | failed =>
        obtain ⟨j, hrun⟩ :=
          (Journaled.document_erases ⟨p.grammar, source⟩ p.maxDepth name).exists_run hdoc []
        exact ((Journaled.document_walk ⟨p.grammar, source⟩ p.maxDepth name).of_run hrun).2.1 rfl
      | trailing o => cases h
      | matched tree reads => cases h
  · rw [parseWith_undefined p source log hstart] at h
    cases h

/-- **The furthest failure is reported.** Let the names of the grammar not be empty and the start be a rule
or a token.  If the start is derived to fail and the parse does not go too deep, the parse reports a
mishap.  Of all calls that are made without a memory, in the order in which they begin, it names the first
of the furthest; its offset is in the text, and line and column are those of the offset. -/
theorem parseWith_unexpected (p : Parser) {name : Bytes} (source : Source) (log : Log)
    (hnamed : Named p.grammar)
    (hstart : p.grammar.declares name = true ∨ Grammar.isToken name = true)
    (hfail : ∃ tr, Derives ⟨p.grammar, source⟩ (.name name) 0 .fail tr)
    (hdeep : ∀ limit rule depth, (p.parseWith name source log).1 ≠ .error (.exhausted limit rule depth)) :
    ∃ m cs c, (p.parseWith name source log).1 = .error (.unexpected m)
      ∧ Calls ⟨p.grammar, source⟩ (.name name) 0 cs
      ∧ FirstFurthest (Call.partsAll cs) c
      ∧ m.offset = c.offset ∧ m.rule = c.name
      ∧ (m.line, m.column) = source.position m.offset ∧ m.offset ≤ source.size := by
  rw [parseWith_fst p source log hstart] at hdeep ⊢
  cases hdoc : document ⟨p.grammar, source⟩ p.maxDepth name {} with
  | error e s =>
    -- too deep
    have hends := document_ends ⟨p.grammar, source⟩ p.maxDepth name
    unfold Ends at hends
    rw [hdoc] at hends hdeep
    obtain ⟨rule, depth, rfl⟩ := hends
    exact absurd rfl (hdeep _ _ _)
  | ok verdict s =>
    obtain ⟨j, hrun⟩ :=
      (Journaled.document_erases ⟨p.grammar, source⟩ p.maxDepth name).exists_run hdoc []
    obtain ⟨⟨hr, cs, hcs, hj⟩, hverdict⟩ :=
      (Journaled.document_walk ⟨p.grammar, source⟩ p.maxDepth name).of_run hrun
    obtain rfl : verdict = .failed := hverdict.2 hfail
    obtain ⟨c, hfirst, hc⟩ := hcs.furthest_walkAll hnamed (Nat.zero_le _)
      (fun n hn => List.mem_singleton.1 hn ▸ start_ne_nil hnamed hstart) hcs.name_ne_empty
    have hreached : (s.furthest, s.attempt) = (c.offset, c.name) := by rw [hr.furthest, ← hc, hj]
    obtain ⟨hoffset, hname⟩ := Prod.mk.inj hreached
    have hmem : c ∈ Call.partsAll cs := by
      obtain ⟨before, after, heq, -⟩ := hfirst
      exact heq ▸ List.mem_append_right _ List.mem_cons_self
    have hle : s.furthest ≤ source.size := hoffset ▸ hcs.offset_le (Nat.zero_le _) c hmem
    exact ⟨_, cs, c, rfl, hcs, hfirst, hoffset, hname, rfl, hle⟩

/-- Both alternatives of `s` begin with a sign: `s <- a '-' / a '*'` and `a <- '+' NUMBER`. -/
def signGrammar : Grammar where
  name := Bytes.ascii "sign"
  rules := #[
    { name := Bytes.ascii "s", nodeType := Bytes.ascii "s", isFragment := false, description := []
      pattern := .choice none [
        .seq none [.atom none (.rule (Bytes.ascii "a")), .atom none (.literal (Bytes.ascii "-"))],
        .seq none [.atom none (.rule (Bytes.ascii "a")), .atom none (.literal (Bytes.ascii "*"))]] },
    { name := Bytes.ascii "a", nodeType := Bytes.ascii "a", isFragment := false, description := []
      pattern := .seq none [.atom none (.literal (Bytes.ascii "+")), .atom none (.token .number)] }]

def signParser : Parser where
  grammar := signGrammar
  maxDepth := 2
  leftRecursive_eq := by decide +kernel

theorem parseWith_sign :
    (signParser.parseWith signGrammar.start (.ofBytes (Bytes.ascii "+ x")) #[]).1
      = .error (.unexpected ⟨2, 1, 3, Bytes.ascii "NUMBER", Bytes.ascii "x"⟩) := by
  cbv

/-- The number is tried once, and would be tried again for the second alternative: it is the first of the
furthest calls all the same. -/
theorem parseWith_sign_unexpected :
    Named signGrammar ∧ signGrammar.declares signGrammar.start = true
      ∧ ∃ cs c, Calls ⟨signGrammar, .ofBytes (Bytes.ascii "+ x")⟩ (.name signGrammar.start) 0 cs
        ∧ FirstFurthest (Call.partsAll cs) c ∧ c.offset = 2 ∧ c.name = Bytes.ascii "NUMBER" := by
  have hnamed : Named signGrammar := by unfold Named; decide +kernel
  have hstart : signGrammar.declares signGrammar.start = true := by cbv
  have hparse := parseWith_sign
  have hdeep : ∀ limit rule depth, (signParser.parseWith signGrammar.start
      (.ofBytes (Bytes.ascii "+ x")) #[]).1 ≠ .error (.exhausted limit rule depth) := by
    intro limit rule depth h
    cases hparse.symm.trans h
  obtain ⟨m, cs, c, hm, hcs, hfirst, hoffset, hname, -, -⟩ :=
    parseWith_unexpected signParser (.ofBytes (Bytes.ascii "+ x")) #[] hnamed (.inl hstart)
      (derives_fail_of_unexpected hparse) hdeep
  cases hparse.symm.trans hm
  exact ⟨hnamed, hstart, cs, c, hcs, hfirst, hoffset.symm, hname.symm⟩

end Parser

end Packrat
