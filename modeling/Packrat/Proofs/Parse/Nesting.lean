import Packrat.Proofs.Grammar.LeftRecursion
import Packrat.Proofs.Parse.Once
import Packrat.Proofs.Parse.TwoRuns
import Mathlib.Data.Finset.Card

/-!
How deep rules are matched inside of each other.

The check for left recursion follows the first items of sequences only.  What stands behind a first item
is no concern of it, so a rule may still run into itself behind a first item that matches nothing.  In a
grammar without such sequences (`Grammar.Progressive`) it cannot: a rule that is invoked at the offset at
which the rule around it was invoked is one that this rule leads to, and every other rule is invoked
further on.

So every rule has a rank, the number of rules that it leads to (`Grammar.rank`), and from one rule to a
rule inside of it either less of the text is left or the rank is smaller.  This is the measure along the
rules that are being matched.  It is not a measure of the matcher, which has none: what keeps a match from
being broken off is that the levels left to spend exceed the measure (`invoke_halts`), whatever is
remembered.

Main statement (`Parser.parse_not_exhausted`): with a level for every rule at every offset, no parse goes
too deep, and no rule is started at an offset while it is being matched there.
-/

namespace Packrat

open Relation (TransGen)

/-! ### Sequences that make progress -/

namespace Expr

/-- An expression stands somewhere in another one, or is that one. -/
inductive Within (e : Expr) : Expr → Prop
  | self : Within e e
  | inside {child whole : Expr} : child ∈ whole.children → Within e child → Within e whole

mutual

/-- What an expression may begin with it refers to. -/
theorem leading_subset : ∀ e : Expr, e.leading ⊆ e.references
  | .atom _ a => by
    cases a with
    | rule name => exact List.Subset.refl _
    | _ => exact List.nil_subset _
  | .apply _ _ e => by
    rw [leading, references]
    exact leading_subset e
  | .seq _ [] => List.nil_subset _
  | .seq _ (e :: es) => by
    rw [leading, references, referencesAll]
    exact List.Subset.trans (leading_subset e) (List.subset_append_left _ _)
  | .choice _ es => by
    rw [leading, references]
    exact leadingAll_subset es

theorem leadingAll_subset : ∀ es : List Expr, leadingAll es ⊆ referencesAll es
  | [] => List.nil_subset _
  | e :: es => by
    rw [leadingAll, referencesAll]
    exact List.append_subset.mpr
      ⟨List.Subset.trans (leading_subset e) (List.subset_append_left _ _),
        List.Subset.trans (leadingAll_subset es) (List.subset_append_right _ _)⟩

end

end Expr

namespace Grammar

open Parse

/-- No match of an expression ends where it has begun, in whatever text. -/
def Advances (g : Grammar) (e : Expr) : Prop :=
  ∀ (source : Source) o stop y tr, o ≤ source.size →
    Derives ⟨g, source⟩ (.expr e) o (.ok stop y) tr → stop ≠ o

/-- In every sequence of an expression, nothing behind the first item refers to a rule, or the first item
does not match without advancing. -/
def Steady (g : Grammar) (e : Expr) : Prop :=
  ∀ label first rest, (Expr.seq label (first :: rest)).Within e →
    (∀ name ∈ Expr.referencesAll rest, g.declares name = false) ∨ g.Advances first

/-- The pattern of every rule is steady. -/
def Progressive (g : Grammar) : Prop := ∀ r ∈ g.rules, g.Steady r.pattern

variable {g : Grammar} {e : Expr} {name next : Bytes}

theorem Steady.child (h : g.Steady e) {c : Expr} (hc : c ∈ e.children) : g.Steady c :=
  fun label first rest hin => h label first rest (.inside hc hin)

/-- An expression is steady if its parts are and, should it be a sequence, its own first item is fine. -/
theorem Steady.of_children (h : ∀ c ∈ e.children, g.Steady c)
    (hfirst : ∀ label first rest, e = .seq label (first :: rest) →
      (∀ name ∈ Expr.referencesAll rest, g.declares name = false) ∨ g.Advances first) : g.Steady e := by
  intro label first rest hin
  cases hin with
  | self => exact hfirst label first rest rfl
  | inside hc hin => exact h _ hc label first rest hin

theorem steady_atom (label : Option Bytes) (a : Atom) : g.Steady (.atom label a) :=
  .of_children (fun _ hc => nomatch hc) fun _ _ _ heq => nomatch heq

/-- A literal that is not empty advances, whatever is skipped in front of it. -/
theorem advances_literal {label : Option Bytes} {text : Bytes} (h : text ≠ []) :
    g.Advances (.atom label (.literal text)) := by
  intro source o stop y tr ho hd
  cases hd with
  | literal hl hout =>
    subst hl
    obtain ⟨m, hreach, hfound⟩ := scanned_eq_ok hout.symm
    obtain ⟨rfl, -⟩ := Outcome.ok.inj hfound
    have hlength := List.length_pos_iff.mpr h
    have hstop := literal_upTo hreach
    have hle : o ≤ (skipped ⟨g, source⟩ o).1 := (skipped_linked ho).le_stop
    omega

/-! ### Ranks -/

open Classical in
/-- The number of rules that a name leads to. -/
noncomputable def rank (g : Grammar) (name : Bytes) : Nat :=
  (g.names.toFinset.filter fun next => TransGen g.Leads name next).card

theorem declares_iff : g.declares name = true ↔ name ∈ g.names := by
  rw [declares, Option.isSome_iff_ne_none, ne_eq, find?_eq_none_iff, not_not]

theorem mem_names_of_find? {id : Nat} (h : g.find? name = some id) : name ∈ g.names :=
  declares_iff.mp (by rw [declares, h, Option.isSome_some])

theorem not_cycle (hg : g.leftRecursive = []) : ¬ TransGen g.Leads name name := fun h =>
  List.not_mem_nil (hg ▸ mem_leftRecursive_of_cycle h)

/-- Every step to a rule goes down in rank. -/
theorem rank_lt_of_leads (hg : g.leftRecursive = []) (hnext : next ∈ g.names) (h : g.Leads name next) :
    g.rank next < g.rank name := by
  classical
  refine Finset.card_lt_card (Finset.ssubset_iff_of_subset ?_ |>.mpr ⟨next, ?_, ?_⟩)
  · exact Finset.monotone_filter_right _ fun _ _ hreach => TransGen.head h hreach
  · exact Finset.mem_filter.mpr ⟨List.mem_toFinset.mpr hnext, .single h⟩
  · exact fun hmem => not_cycle hg (Finset.mem_filter.mp hmem).2

/-- A rule does not lead to all rules. -/
theorem rank_lt_size (hg : g.leftRecursive = []) (hname : name ∈ g.names) :
    g.rank name < g.rules.size := by
  classical
  calc g.rank name < g.names.toFinset.card := by
        refine Finset.card_lt_card (Finset.ssubset_iff_of_subset (Finset.filter_subset _ _) |>.mpr
          ⟨name, List.mem_toFinset.mpr hname, ?_⟩)
        exact fun hmem => not_cycle hg (Finset.mem_filter.mp hmem).2
    _ ≤ g.names.length := List.toFinset_card_le _
    _ = g.rules.size := by simp [names]

end Grammar

namespace Parse

open Grammar (Steady Progressive)

/-! ### Evaluations that are not broken off -/

/-- An evaluation that comes to its end. -/
def Completes {α : Type} (m : Eval α) (s : State) : Prop := ∃ a s', m s = .ok a s'

theorem Completes.bind {α β : Type} {m : Eval α} {f : α → Eval β} {s : State} (h : Completes m s)
    (hf : ∀ a s', m s = .ok a s' → Completes (f a) s') : Completes (m >>= f) s := by
  obtain ⟨a, s', hm⟩ := h
  obtain ⟨b, s'', hb⟩ := hf a s' hm
  refine ⟨b, s'', ?_⟩
  rw [Eval.bind_apply, hm]
  exact hb

/-- A match that comes to its end whatever is remembered. -/
def Halts (ctx : Context) (m : Eval Outcome) : Prop := ∀ s, Sound ctx s.memo → Completes m s

/-- A match that halts is followed by an evaluation that completes from where its derivation ends. -/
theorem Halts.bind {ctx : Context} {g : Goal} {o : Nat} {β : Type} {m : Eval Outcome}
    {f : Outcome → Eval β} {s : State} (h : Halts ctx m) (ht : Tracks ctx g o m)
    (hs : Sound ctx s.memo)
    (hf : ∀ out s' tr, Sound ctx s'.memo → Derives ctx g o out.flat tr → Completes (f out) s') :
    Completes (m >>= f) s := by
  refine (h s hs).bind fun out s' hrun => ?_
  obtain ⟨hs', tr, hd, -⟩ := (ht s hs).of_run hrun
  exact hf out s' tr hs' hd

variable {ctx : Context} {call : Invoke} {depth o : Nat} {names : List Bytes}

theorem remember_halts {key : Key} {compute : Eval Entry}
    (h : ∀ s, Sound ctx s.memo → Completes compute s) : Halts ctx (Eval.remember key compute) := by
  intro s hs
  cases hmemo : s.memo[key]? with
  | some e => exact ⟨_, _, remember_hit hmemo⟩
  | none =>
    have hcompute : Completes (compute >>= fun e => do
        modify fun s => { s with memo := s.memo.insert key e }
        Eval.consume e
        return e.outcome) s := (h s hs).bind fun e s' _ => ⟨_, _, rfl⟩
    obtain ⟨out, s', hrun⟩ := hcompute
    exact ⟨out, s', (remember_miss hmemo).trans hrun⟩

theorem matchToken_halts (kind : TokenKind) (ho : o ≤ ctx.source.size) :
    Halts ctx (matchToken ctx depth kind o) := by
  refine remember_halts fun s _ => ?_
  obtain ⟨s', hentry, -⟩ :=
    tokenEntry_apply depth kind (show (⟨tokenSymbol ctx kind, o⟩ : Key).offset ≤ _ from ho) s
  exact ⟨_, s', hentry⟩

/-! ### Expressions -/

/-- A way to match rules that halts for some names at an offset, and for all names behind it. -/
structure Serves (ctx : Context) (call : Invoke) (names : List Bytes) (o : Nat) : Prop where
  here : ∀ name ∈ names, ∀ id, ctx.grammar.find? name = some id → Halts ctx (call id o)
  later : ∀ name id o', ctx.grammar.find? name = some id → o < o' → o' ≤ ctx.source.size →
    Halts ctx (call id o')

namespace Serves

theorem mono (h : Serves ctx call names o) {names' : List Bytes} (hsub : names' ⊆ names) :
    Serves ctx call names' o :=
  ⟨fun name hname => h.here name (hsub hname), h.later⟩

/-- Further on, all names are served. -/
theorem ahead (h : Serves ctx call names o) {o' : Nat} (hlt : o < o') (ho' : o' ≤ ctx.source.size)
    (names' : List Bytes) : Serves ctx call names' o' :=
  ⟨fun name _ id hfind => h.later name id o' hfind hlt ho',
    fun name id o'' hfind hlt' => h.later name id o'' hfind (Nat.lt_trans hlt hlt')⟩

theorem from_le (h : Serves ctx call names o) {o' : Nat} (hle : o ≤ o') (ho' : o' ≤ ctx.source.size) :
    Serves ctx call names o' := by
  rcases Nat.eq_or_lt_of_le hle with rfl | hlt
  · exact h
  · exact h.ahead hlt ho' names

/-- Names that stand for no rule are served. -/
theorem of_undeclared (h : Serves ctx call names o) {names' : List Bytes}
    (hnone : ∀ name ∈ names', ctx.grammar.declares name = false) : Serves ctx call names' o := by
  refine ⟨fun name hname id hfind => ?_, h.later⟩
  have hdeclared := hnone name hname
  rw [Grammar.declares, hfind] at hdeclared
  cases hdeclared

end Serves

theorem matchName_halts {name : Bytes} (ho : o ≤ ctx.source.size) (h : Serves ctx call [name] o) :
    Halts ctx (matchName ctx call depth name o) := by
  unfold matchName
  cases hfind : ctx.grammar.find? name with
  | some id => exact h.here name (List.mem_singleton_self name) id hfind
  | none =>
    dsimp only
    cases TokenKind.ofName? name with
    | some kind =>
      dsimp only
      split
      · exact fun s _ => ⟨_, _, rfl⟩
      · exact matchToken_halts kind ho
    | none => exact fun s _ => ⟨_, _, rfl⟩

theorem matchAtom_halts (label : Option Bytes) (a : Atom) (ho : o ≤ ctx.source.size)
    (h : Serves ctx call (Expr.leading (.atom label a)) o) :
    Halts ctx (matchAtom ctx call depth a o) := by
  cases a with
  | rule name => exact matchName_halts ho h
  | token kind => exact matchToken_halts kind ho
  | literal text =>
    intro s _
    refine Completes.bind ⟨_, _, skip_apply ho s⟩ fun start s' hrun => ?_
    rw [skip_apply ho s] at hrun
    cases hrun
    have hinside := Scan.literal_inside (skipped_linked ho).stop_le text (isWord text)
    exact ⟨_, _, scan_apply hinside.ne_beyond _⟩
  | charClass c => exact fun s _ => ⟨_, _, scan_apply (Scan.byte_inside ho c.accepts).ne_beyond s⟩
  | anyByte => exact fun s _ => ⟨_, _, scan_apply (Scan.byte_inside ho fun _ => true).ne_beyond s⟩

section Operators

variable {e : Expr} {body : Nat → Eval Outcome}
  (hbody : ∀ o', o ≤ o' → o' ≤ ctx.source.size →
    Halts ctx (body o') ∧ Tracks ctx (.expr e) o' (body o'))

include hbody

/-- The rounds of a repetition move on, so they are served once its first one is. -/
theorem matchMany_completes {fuel count : Nat} {ps : Array Piece} (ho : o ≤ ctx.source.size) {s : State}
    (hs : Sound ctx s.memo) : Completes (matchMany body fuel count o ps) s := by
  induction fuel generalizing count o ps s with
  | zero => exact ⟨_, _, rfl⟩
  | succ fuel ih =>
    obtain ⟨hhalts, htracks⟩ := hbody o (Nat.le_refl o) ho
    rw [matchMany]
    refine hhalts.bind htracks hs fun out s' tr hs' hd => ?_
    cases out with
    | fail => exact ⟨_, _, rfl⟩
    | ok stop y =>
      have hb := hd.bounds ho rfl
      dsimp only
      split
      · exact ⟨_, _, rfl⟩
      · exact ih (fun o' hle => hbody o' (Nat.le_trans hb.1 hle)) hb.2 hs'

theorem matchOperator_halts (op : Operator) (ho : o ≤ ctx.source.size) :
    Halts ctx (matchOperator ctx op body o) := by
  obtain ⟨hhalts, htracks⟩ := hbody o (Nat.le_refl o) ho
  intro s hs
  unfold matchOperator
  cases op with
  | star | plus => exact (matchMany_completes hbody ho hs).bind fun _ _ _ => ⟨_, _, rfl⟩
  | option | ahead | notAhead =>
    refine hhalts.bind htracks hs fun out s' tr _ _ => ?_
    cases out <;> exact ⟨_, _, rfl⟩

end Operators

mutual

/-- A steady expression halts where the names are served that it may begin with. -/
theorem matchExpr_halts (hcall : call.Tracks ctx) (depth : Nat) : ∀ (e : Expr) {o : Nat},
    o ≤ ctx.source.size → Steady ctx.grammar e → Serves ctx call e.leading o →
      Halts ctx (matchExpr ctx call depth e o)
  | .atom label a, o, ho, _, h => by
    rw [matchExpr]
    exact matchAtom_halts label a ho h
  | .apply label op e, o, ho, hsteady, h => by
    rw [matchExpr]
    rw [Expr.leading] at h
    exact matchOperator_halts (fun o' hle ho' =>
      ⟨matchExpr_halts hcall depth e ho' (hsteady.child List.mem_cons_self) (h.from_le hle ho'),
        matchExpr_tracks hcall depth e ho'⟩) op ho
  | .seq label [], o, _, _, _ => by
    rw [matchExpr, matchSeq]
    exact fun s _ => ⟨_, _, rfl⟩
  | .seq label (e :: es), o, ho, hsteady, h => by
    rw [matchExpr, matchSeq]
    rw [Expr.leading] at h
    intro s hs
    refine (matchExpr_halts hcall depth e ho (hsteady.child List.mem_cons_self) h).bind
      (matchExpr_tracks hcall depth e ho) hs fun out s' tr hs' hd => ?_
    cases out with
    | fail => exact ⟨_, _, rfl⟩
    | ok m y =>
      have hb := hd.bounds ho rfl
      -- behind the first item there is no rule to be invoked, or all rules are served
      have hrest : Serves ctx call (Expr.referencesAll es) m := by
        rcases hsteady label e es .self with hnone | hadvances
        · exact (h.from_le hb.1 hb.2).of_undeclared hnone
        · have hne := hadvances ctx.source o m _ tr ho hd
          exact h.ahead (by omega) hb.2 _
      exact matchSeq_halts hcall depth es hb.2
        (fun e' he' => hsteady.child (List.mem_cons_of_mem e he')) hrest _ s' hs'
  | .choice label es, o, ho, hsteady, h => by
    rw [matchExpr]
    rw [Expr.leading] at h
    exact matchChoice_halts hcall depth es ho (fun e he => hsteady.child he) h

/-- The items behind the first one of a sequence halt where all names in them are served. -/
theorem matchSeq_halts (hcall : call.Tracks ctx) (depth : Nat) : ∀ (es : List Expr) {o : Nat},
    o ≤ ctx.source.size → (∀ e ∈ es, Steady ctx.grammar e) →
      Serves ctx call (Expr.referencesAll es) o → ∀ ps, Halts ctx (matchSeq ctx call depth es o ps)
  | [], o, _, _, _, ps => by
    rw [matchSeq]
    exact fun s _ => ⟨_, _, rfl⟩
  | e :: es, o, ho, hsteady, h, ps => by
    rw [matchSeq]
    rw [Expr.referencesAll] at h
    intro s hs
    refine (matchExpr_halts hcall depth e ho (hsteady e List.mem_cons_self)
      (h.mono (List.Subset.trans (Expr.leading_subset e) (List.subset_append_left _ _)))).bind
      (matchExpr_tracks hcall depth e ho) hs fun out s' tr hs' hd => ?_
    cases out with
    | fail => exact ⟨_, _, rfl⟩
    | ok m y =>
      have hb := hd.bounds ho rfl
      exact matchSeq_halts hcall depth es hb.2 (fun e' he' => hsteady e' (List.mem_cons_of_mem e he'))
        ((h.from_le hb.1 hb.2).mono (List.subset_append_right _ _)) _ s' hs'

theorem matchChoice_halts (hcall : call.Tracks ctx) (depth : Nat) : ∀ (es : List Expr) {o : Nat},
    o ≤ ctx.source.size → (∀ e ∈ es, Steady ctx.grammar e) →
      Serves ctx call (Expr.leadingAll es) o → Halts ctx (matchChoice ctx call depth es o)
  | [], o, _, _, _ => by
    rw [matchChoice]
    exact fun s _ => ⟨_, _, rfl⟩
  | e :: es, o, ho, hsteady, h => by
    rw [matchChoice]
    rw [Expr.leadingAll] at h
    intro s hs
    refine (matchExpr_halts hcall depth e ho (hsteady e List.mem_cons_self)
      (h.mono (List.subset_append_left _ _))).bind
      (matchExpr_tracks hcall depth e ho) hs fun out s' tr hs' _ => ?_
    cases out with
    | fail =>
      exact matchChoice_halts hcall depth es ho (fun e' he' => hsteady e' (List.mem_cons_of_mem e he'))
        (h.mono (List.subset_append_right _ _)) s' hs'
    | ok stop y => exact ⟨_, _, rfl⟩

end

/-! ### Rules -/

/-- A rule completes if its pattern halts, behind the ignored text in front of it. -/
theorem ruleEntry_completes (hcall : call.Tracks ctx) {id : Nat} {rule : Rule}
    (hrule : ctx.grammar.rules[id]? = some rule) (ho : o ≤ ctx.source.size)
    (hsteady : Steady ctx.grammar rule.pattern)
    (h : Serves ctx call rule.pattern.leading (skipped ctx o).1) {s : State} (hs : Sound ctx s.memo) :
    Completes (ruleEntry ctx call depth ⟨id, o⟩) s := by
  have hstart := (skipped_linked ho).stop_le
  have hruleOf : ruleOf ctx id s = .ok rule s := by
    simp only [ruleOf, hrule]
    rfl
  have hskip := skip_apply ho { s with frame := {} }
  unfold ruleEntry
  refine Completes.bind ⟨_, _, hruleOf⟩ fun _ _ hrun => ?_
  cases hruleOf.symm.trans hrun
  refine Completes.bind (m := Eval.enter) ⟨_, _, rfl⟩ fun _ _ hrun => ?_
  cases hrun
  refine Completes.bind ⟨_, _, hskip⟩ fun _ _ hrun => ?_
  cases hskip.symm.trans hrun
  obtain ⟨s', hattempt, hmemo, -⟩ := Eval.attempt_apply rule.name (skipped ctx o).1
    { s with frame := Frame.after {} ((skipped ctx o).2.map .saw) }
  refine Completes.bind ⟨_, _, hattempt⟩ fun _ _ hrun => ?_
  cases hattempt.symm.trans hrun
  refine (matchExpr_halts hcall depth rule.pattern hstart hsteady h).bind
    (matchExpr_tracks hcall depth rule.pattern hstart) (hmemo ▸ hs) fun out _ _ _ _ => ?_
  refine Completes.bind (m := Eval.leave s.frame) ⟨_, _, rfl⟩ fun _ _ _ => ?_
  cases out with
  | fail => exact ⟨_, _, rfl⟩
  | ok stop y =>
    dsimp only
    split <;> exact ⟨_, _, rfl⟩

/-- How many rules may still be matched inside of a rule at an offset: as many as there are, for every
byte that is left of the text, and at the offset itself as many as the rule leads to. -/
noncomputable def nesting (ctx : Context) (name : Bytes) (o : Nat) : Nat :=
  (ctx.source.size - o) * ctx.grammar.rules.size + ctx.grammar.rank name

section Nesting

variable {name next : Bytes} (hg : ctx.grammar.leftRecursive = [])

include hg

theorem nesting_lt_of_leads (hnext : next ∈ ctx.grammar.names) (h : ctx.grammar.Leads name next) :
    nesting ctx next o < nesting ctx name o :=
  Nat.add_lt_add_left (Grammar.rank_lt_of_leads hg hnext h) _

/-- Further on there is less room for rules, whichever they are. -/
theorem nesting_lt_of_lt {o' : Nat} (hnext : next ∈ ctx.grammar.names) (hlt : o < o')
    (ho' : o' ≤ ctx.source.size) : nesting ctx next o' < nesting ctx name o := by
  have hrank := Grammar.rank_lt_size hg hnext
  unfold nesting
  calc (ctx.source.size - o') * ctx.grammar.rules.size + ctx.grammar.rank next
      < (ctx.source.size - o') * ctx.grammar.rules.size + ctx.grammar.rules.size :=
        Nat.add_lt_add_left hrank _
    _ = (ctx.source.size - o' + 1) * ctx.grammar.rules.size := (Nat.succ_mul _ _).symm
    _ ≤ (ctx.source.size - o) * ctx.grammar.rules.size := Nat.mul_le_mul_right _ (by omega)
    _ ≤ (ctx.source.size - o) * ctx.grammar.rules.size + ctx.grammar.rank name := Nat.le_add_right _ _

theorem nesting_lt (hname : name ∈ ctx.grammar.names) (o : Nat) :
    nesting ctx name o < ctx.grammar.rules.size * (ctx.source.size + 1) := by
  have hrank := Grammar.rank_lt_size hg hname
  have hleft := Nat.mul_le_mul_left ctx.grammar.rules.size (Nat.sub_le ctx.source.size o)
  rw [nesting, Nat.mul_comm, Nat.mul_succ]
  omega

/-- **Depth suffices.** A rule is matched to its end if there are more levels left than rules that may
be matched inside of it. -/
theorem invoke_halts (hprogressive : Progressive ctx.grammar) {budget id : Nat}
    (hfind : ctx.grammar.find? name = some id) (ho : o ≤ ctx.source.size)
    (hbudget : nesting ctx name o < budget) : Halts ctx (invoke ctx budget depth id o) := by
  induction budget generalizing depth name id o with
  | zero => omega
  | succ budget ih =>
    rw [invoke]
    have hid := find?_lt_size hfind
    have hrule := Array.getElem?_eq_getElem hid
    have hpattern : ctx.grammar.pattern? name = some ctx.grammar.rules[id].pattern := by
      rw [Grammar.pattern?, hfind, Option.bind_some, hrule, Option.map_some]
    have hlinked : Scan.Linked ctx.source.text o (skipped ctx o).2 (skipped ctx o).1 := skipped_linked ho
    have hroom : nesting ctx name o ≤ budget := Nat.le_of_lt_succ hbudget
    -- a rule further on has less room, wherever it is invoked from
    have hlater : ∀ next id' o', ctx.grammar.find? next = some id' → o < o' → o' ≤ ctx.source.size →
        Halts ctx (invoke ctx budget (depth + 1) id' o') := fun next id' o' hfind' hlt ho' =>
      ih hfind' ho' (Nat.lt_of_lt_of_le
        (nesting_lt_of_lt hg (Grammar.mem_names_of_find? hfind') hlt ho') hroom)
    have hserves : Serves ctx (invoke ctx budget (depth + 1)) ctx.grammar.rules[id].pattern.leading
        (skipped ctx o).1 := by
      refine ⟨fun next hnext id' hfind' => ?_, fun next id' o' hfind' hlt => ?_⟩
      · rcases Nat.eq_or_lt_of_le hlinked.le_stop with heq | hlt
        · rw [← heq]
          exact ih hfind' ho (Nat.lt_of_lt_of_le
            (nesting_lt_of_leads hg (Grammar.mem_names_of_find? hfind') ⟨_, hpattern, hnext⟩) hroom)
        · exact hlater next id' _ hfind' hlt hlinked.stop_le
      · exact hlater next id' o' hfind' (Nat.lt_of_le_of_lt hlinked.le_stop hlt)
    exact remember_halts fun s hs => ruleEntry_completes (invoke_tracks ctx budget (depth + 1)) hrule ho
      (hprogressive _ (Array.getElem_mem hid)) hserves hs

end Nesting

end Parse

/-! ### Parses -/

namespace Parser

open Parse Grammar

/-- A document is matched to its end if there is a level for every rule at every offset. -/
theorem document_completes (ctx : Context) {maxDepth : Nat} (hg : ctx.grammar.leftRecursive = [])
    (hprogressive : ctx.grammar.Progressive)
    (hdepth : ctx.grammar.rules.size * (ctx.source.size + 1) ≤ maxDepth) (name : Bytes) :
    Completes (document ctx maxDepth name) {} := by
  have hserves : Serves ctx (invoke ctx maxDepth 0) [name] 0 := by
    have hall : ∀ next id o, ctx.grammar.find? next = some id → o ≤ ctx.source.size →
        Halts ctx (invoke ctx maxDepth 0 id o) := fun next id o hfind ho =>
      invoke_halts hg hprogressive hfind ho
        (Nat.lt_of_lt_of_le (nesting_lt hg (mem_names_of_find? hfind) o) hdepth)
    exact ⟨fun next _ id hfind => hall next id 0 hfind (Nat.zero_le _),
      fun next id o hfind _ ho => hall next id o hfind ho⟩
  unfold document
  refine (matchName_halts (Nat.zero_le _) hserves).bind
    (matchName_tracks (invoke_tracks ctx maxDepth 0) (Nat.zero_le _)) (sound_empty ctx)
    fun out s tr _ hd => ?_
  cases out with
  | fail => exact ⟨_, _, rfl⟩
  | ok stop y =>
    refine Completes.bind ⟨_, _, skipRest_apply (hd.bounds (Nat.zero_le _) rfl).2 s⟩ fun rest _ _ => ?_
    split <;> exact ⟨_, _, rfl⟩

/-- **Left recursion is all that has to be excluded.** If what stands behind the first item of a sequence
is never matched where the sequence has begun, and there is a level for every rule at every offset of the
text, then no parse goes too deep, and no rule is started at an offset at which it is in progress. -/
theorem parse_not_exhausted (p : Parser) (hprogressive : p.grammar.Progressive) (source : Source)
    (log : Log) (hdepth : p.grammar.rules.size * (source.size + 1) ≤ p.maxDepth) :
    (∀ limit rule depth, (p.parse source log).1 ≠ .error (.exhausted limit rule depth))
      ∧ ∀ before key after,
          p.journal p.grammar.start source = before ++ .started key :: after → ¬InProgress before key := by
  obtain ⟨verdict, s, hdoc⟩ := document_completes ⟨p.grammar, source⟩ p.leftRecursive_eq
    hprogressive hdepth p.grammar.start
  refine ⟨fun limit rule depth hparse => ?_, fun before key after heq => ?_⟩
  · by_cases hstart : p.grammar.declares p.grammar.start = true ∨ isToken p.grammar.start = true
    · have hresult := p.parse_fst source log hstart
      rw [hdoc, hparse] at hresult
      cases verdict with
      | failed | trailing | matched => exact nomatch hresult
    · rw [parse, parseWith_undefined p source log hstart] at hparse
      cases hparse
  · obtain ⟨-, -, cs, hcs, hj⟩ := journal_of_document hdoc
    obtain ⟨honce, -⟩ := hcs.walkAll_once (Nat.zero_le _)
    rw [← hj, heq] at honce
    exact honce.not_inProgress

/-- A row of signs, matched to the right. -/
def rowGrammar : Grammar where
  name := Bytes.ascii "row"
  rules := #[.plain (Bytes.ascii "s") (.choice none [
    .seq none [.atom none (.literal (Bytes.ascii "+")), .atom none (.rule (Bytes.ascii "s"))],
    .atom none (.literal (Bytes.ascii "+"))])]

theorem rowGrammar_progressive : rowGrammar.Progressive := by
  intro r hr
  obtain rfl : r = _ := by simpa [rowGrammar] using hr
  have hsign : rowGrammar.Advances (.atom none (.literal (Bytes.ascii "+"))) :=
    advances_literal (by decide)
  refine .of_children (fun c hc => ?_) fun _ _ _ heq => nomatch heq
  obtain rfl | rfl : c = _ ∨ c = _ := by simpa [Rule.plain, Expr.children] using hc
  · refine .of_children (fun c hc => ?_) fun label first rest heq => ?_
    · obtain rfl | rfl : c = _ ∨ c = _ := by simpa [Expr.children] using hc
      · exact steady_atom none _
      · exact steady_atom none _
    · cases heq
      exact .inr hsign
  · exact steady_atom none _

def rowParser (maxDepth : Nat) : Parser where
  grammar := rowGrammar
  maxDepth := maxDepth
  leftRecursive_eq := by decide +kernel

/-- The rule is started at both signs and behind them, so three levels are as few as will do. -/
theorem parse_row_not_exhausted :
    rowGrammar.Progressive ∧ rowGrammar.rules.size * ((Source.ofBytes (Bytes.ascii "++")).size + 1) = 3
      ∧ (∀ limit rule depth, ((rowParser 3).parse (.ofBytes (Bytes.ascii "++")) #[]).1
          ≠ .error (.exhausted limit rule depth))
      ∧ ∀ before key after, (rowParser 3).journal rowGrammar.start (.ofBytes (Bytes.ascii "++"))
          = before ++ .started key :: after → ¬InProgress before key := by
  have hsize : rowGrammar.rules.size * ((Source.ofBytes (Bytes.ascii "++")).size + 1) = 3 := by decide
  exact ⟨rowGrammar_progressive, hsize,
    parse_not_exhausted (rowParser 3) rowGrammar_progressive (.ofBytes (Bytes.ascii "++")) #[] hsize.le⟩

example : ((rowParser 3).parse (.ofBytes (Bytes.ascii "++")) #[]).1.isOk = true := by cbv

example : ((rowParser 2).parse (.ofBytes (Bytes.ascii "++")) #[]).1
    = .error (.exhausted 2 (Bytes.ascii "s") 3) := by cbv

-- in `s <- '+'? s` nothing is left-recursive, but the first item may match nothing: no depth is enough
example :
    let g : Grammar :=
      { name := Bytes.ascii "stuck"
        rules := #[.plain (Bytes.ascii "s") (.seq none [
          .apply none .option (.atom none (.literal (Bytes.ascii "+"))),
          .atom none (.rule (Bytes.ascii "s"))])] }
    (({ grammar := g, maxDepth := 8, leftRecursive_eq := by decide +kernel } : Parser).parse
      (.ofBytes []) #[]).1 = .error (.exhausted 8 (Bytes.ascii "s") 9) := by cbv

end Parser

end Packrat
