import Packrat.Proofs.Parse.Calls
import Packrat.Proofs.Parse.Journal
import Packrat.Proofs.Parse.Transparency

/-!
What a journal says.

A journal and the calls that are made without a memory belong together: the matcher goes through the
forest of calls and passes by every call whose outcome it has stored before (`Call.walk`).  What is in
the memory, and what was tried furthest, can be read off the journal (`Recorded`).

A match starts with a sound memory and a journal that goes with it; its end, if it has one, is described
by the walk (`Walks`).  The derivation that the matcher follows at the same time is that of the matcher
without a journal, so it is taken over (`Erases.ends`) and not followed again.

Main statement (`Journaled.document_walk`): the journal of a document is that of the walk through the
calls of its start.
-/

namespace Packrat

namespace Parse

/-! ### Walks -/

namespace Call

mutual

/-- Goes through a call with a journal; a call whose outcome has been stored is passed by. -/
def walk : Call → List Act → List Act
  | body name start key inner, j =>
    if .stored key ∈ j then j
    else walkAll inner (j ++ [.started key, .tried name start]) ++ [.stored key]
  | unknown name o, j => j ++ [.tried name o]

def walkAll : List Call → List Act → List Act
  | [], j => j
  | c :: cs, j => walkAll cs (walk c j)

end

theorem walkAll_append (cs cs' : List Call) (j : List Act) :
    walkAll (cs ++ cs') j = walkAll cs' (walkAll cs j) := by
  induction cs generalizing j with
  | nil => rfl
  | cons c cs ih => rw [List.cons_append, walkAll, walkAll, ih]

theorem walkAll_singleton (c : Call) (j : List Act) : walkAll [c] j = c.walk j := rfl

end Call

open Call (walkAll walkAll_append walkAll_singleton)

/-- The furthest offset at which something was tried and what was tried there first, after one more
attempt. -/
def reach (p : Nat × Bytes) (name : Bytes) (o : Nat) : Nat × Bytes :=
  if p.1 < o || p.2.isEmpty then (o, name) else p

/-- What an entry of a journal says about attempts. -/
def Act.reach (p : Nat × Bytes) : Act → Nat × Bytes
  | tried name o => Parse.reach p name o
  | started _ | stored _ => p

/-- The furthest attempt in a journal. -/
def furthest (j : List Act) : Nat × Bytes := j.foldl Act.reach (0, [])

/-- The state of a parse goes with its journal. -/
structure Recorded (j : List Act) (s : State) : Prop where
  stored : ∀ key, key ∈ s.memo ↔ .stored key ∈ j
  furthest : (s.furthest, s.attempt) = furthest j

namespace Recorded

variable {j : List Act} {s : State}

theorem start : Recorded [] {} := ⟨fun key => by simp, rfl⟩

theorem frame (h : Recorded j s) (f : Frame) : Recorded j { s with frame := f } :=
  ⟨h.stored, h.furthest⟩

theorem log (h : Recorded j s) (log : Log) : Recorded j { s with log } := ⟨h.stored, h.furthest⟩

/-- The start of a body is written down and changes nothing. -/
theorem started (h : Recorded j s) (key : Key) : Recorded (j ++ [.started key]) s where
  stored k := by simp [h.stored]
  furthest := by rw [h.furthest, Parse.furthest, Parse.furthest, List.foldl_append]; rfl

theorem attempted (h : Recorded j s) (name : Bytes) (o : Nat) :
    Recorded (j ++ [.tried name o]) (s.attempted name o) where
  stored k := by simp [h.stored, State.attempted_memo]
  furthest := by
    rw [Parse.furthest, List.foldl_append, ← Parse.furthest, ← h.furthest]
    simp only [List.foldl_cons, List.foldl_nil, Act.reach, Parse.reach, State.attempted]
    split <;> rfl

theorem insert (h : Recorded j s) (key : Key) (e : Entry) :
    Recorded (j ++ [.stored key]) { s with memo := s.memo.insert key e } where
  stored k := by
    rw [Std.HashMap.mem_insert, h.stored, List.mem_append, List.mem_singleton, Act.stored.injEq,
      beq_iff_eq, or_comm, eq_comm]
  furthest := by rw [h.furthest, Parse.furthest, Parse.furthest, List.foldl_append]; rfl

end Recorded

/-! ### Ends of evaluations with a journal -/

section Ends

variable {α β : Type} {m : Journaled α} {s : State} {j : List Act}

theorem Ends.and {m' : Eval α} {post post' : α → State → Prop} (h : Ends m' s post)
    (h' : Ends m' s post') : Ends m' s fun a s' => post a s' ∧ post' a s' := by
  unfold Ends at *
  cases hm : m' s with
  | ok a s' =>
    rw [hm] at h h'
    exact ⟨h, h'⟩
  | error e s' =>
    rw [hm] at h
    exact h

/-- What holds at the end of an evaluation holds if it keeps a journal. -/
theorem Journaled.Erases.ends {m' : Eval α} (herase : Journaled.Erases m m') {post : α → State → Prop}
    (h : Ends m' s post) (j : List Act) : Ends (m j) s fun r s' => post r.1 s' := by
  have hrun := congrFun (herase j) s
  change EStateM.map Prod.fst (m j) s = m' s at hrun
  unfold Ends at *
  unfold EStateM.map at hrun
  cases hm : m j s with
  | ok r s' =>
    rw [hm] at hrun
    rwa [← hrun] at h
  | error e s' =>
    rw [hm] at hrun
    rwa [← hrun] at h

namespace Journaled

theorem bind_ends {f : α → Journaled β} {post : β × List Act → State → Prop}
    (mid : α → List Act → State → Prop) (h : Ends (m j) s fun r s' => mid r.1 r.2 s')
    (hf : ∀ a j' s', mid a j' s' → Ends (f a j') s' post) : Ends ((m >>= f) j) s post :=
  Ends.bind _ h fun r s' hr => hf r.1 r.2 s' hr

/-- What takes no notes leaves the journal as it is. -/
theorem lift_ends {m' : Eval α} {post : α × List Act → State → Prop}
    (h : Ends m' s fun a s' => post (a, j) s') : Ends ((liftM m' : Journaled α) j) s post :=
  Ends.bind _ h fun _ _ ha => .of_eq rfl ha

theorem attempt_ends (name : Bytes) (o : Nat) (hr : Recorded j s) :
    Ends (Journaled.attempt name o j) s fun r s' => s' = s.attempted name o
      ∧ r.2 = j ++ [.tried name o] ∧ Recorded r.2 s' := by
  refine bind_ends (fun _ j' s' => j' = j ++ [.tried name o] ∧ s' = s) (.of_eq rfl ⟨rfl, rfl⟩) ?_
  rintro _ _ _ ⟨rfl, rfl⟩
  exact lift_ends (.of_eq (Eval.attempt_eq name o _) ⟨rfl, rfl, hr.attempted name o⟩)

end Journaled

end Ends

/-! ### The matcher walks -/

namespace Journaled

variable {ctx : Context} {g : Goal} {o : Nat} {s : State} {j : List Act}

/-- The matcher has walked through the calls of a goal. -/
def Walked (ctx : Context) (g : Goal) (o : Nat) (j j' : List Act) (s' : State) : Prop :=
  Recorded j' s' ∧ ∃ cs, Calls ctx g o cs ∧ j' = walkAll cs j

/-- A match that starts with a sound memory and its journal walks through its calls. -/
def Walks (ctx : Context) (g : Goal) (o : Nat) (m : Journaled Outcome) : Prop :=
  ∀ j s, Sound ctx s.memo → Recorded j s → Ends (m j) s fun r s' => Walked ctx g o j r.2 s'

/-- It follows a derivation at the same time. -/
def Records (ctx : Context) (g : Goal) (o : Nat) (m : Journaled Outcome) : Prop :=
  ∀ j s, Sound ctx s.memo → Recorded j s → Ends (m j) s fun r s' =>
    Followed ctx g o s r.1 s' ∧ Walked ctx g o j r.2 s'

theorem Walks.records {m : Journaled Outcome} {m' : Eval Outcome} (h : Walks ctx g o m)
    (herase : Erases m m') (htracks : Tracks ctx g o m') : Records ctx g o m :=
  fun j s hs hr => (herase.ends (htracks s hs) j).and (h j s hs hr)

theorem Walks.of_calls {g' : Goal} {m : Journaled Outcome} (h : Walks ctx g o m)
    (himp : ∀ cs, Calls ctx g o cs → Calls ctx g' o cs) : Walks ctx g' o m := by
  intro j s hs hr
  refine (h j s hs hr).mono ?_
  rintro r s' ⟨hr', cs, hcs, hj⟩
  exact ⟨hr', cs, himp cs hcs, hj⟩

/-! #### Rules, tokens and names -/

theorem calls_eq_body {symbol : Nat} (hsymbol : g.symbol? ctx = some symbol) {cs : List Call}
    (h : Calls ctx g o cs) : ∃ name start inner, cs = [.body name start ⟨symbol, o⟩ inner] := by
  cases g with
  | rule id =>
    rw [Goal.symbol?, Option.ite_none_right_eq_some, Option.some.injEq] at hsymbol
    cases h
    exact ⟨_, _, _, by rw [hsymbol.2]⟩
  | token kind =>
    cases hsymbol
    cases h
    exact ⟨_, _, _, rfl⟩
  | _ => cases hsymbol

/-- The body of a rule or token notes its attempt and walks through what it tries in turn. -/
def BodyWalked (ctx : Context) (g : Goal) (key : Key) (j j' : List Act) (s' : State) : Prop :=
  Recorded j' s' ∧ ∃ name start inner, Calls ctx g key.offset [.body name start key inner]
    ∧ j' = walkAll inner (j ++ [.tried name start])

theorem remember_walks {symbol : Nat} {compute : Journaled Entry} (ho : o ≤ ctx.source.size)
    (hsymbol : g.symbol? ctx = some symbol)
    (hcompute : ∀ j s, Sound ctx s.memo → Recorded j s →
      Ends (compute j) s fun r s' => BodyWalked ctx g ⟨symbol, o⟩ j r.2 s') :
    Walks ctx g o (remember ⟨symbol, o⟩ compute) := by
  intro j s hs hr
  refine bind_ends (fun s₁ j' s' => s = s₁ ∧ j = j' ∧ s = s') (.of_eq rfl ⟨rfl, rfl, rfl⟩) ?_
  rintro _ _ _ ⟨rfl, rfl, rfl⟩
  cases hmem : s.memo[(⟨symbol, o⟩ : Key)]? with
  | some e =>
    -- what is remembered has a derivation, so it has calls; their walk passes by
    obtain ⟨cs, hcs⟩ := (hs g o symbol e hsymbol ho hmem).exists_calls
    obtain ⟨name, start, inner, rfl⟩ := calls_eq_body hsymbol hcs
    have hstored : Act.stored ⟨symbol, o⟩ ∈ j := by
      rw [← hr.stored, Std.HashMap.mem_iff_isSome_getElem?, hmem]
      rfl
    refine .of_eq rfl ⟨hr.frame _, _, hcs, ?_⟩
    rw [walkAll_singleton, Call.walk, if_pos hstored]
  | none =>
    have hstored : Act.stored ⟨symbol, o⟩ ∉ j := by
      rw [← hr.stored, Std.HashMap.mem_iff_isSome_getElem?, hmem]
      exact Bool.false_ne_true
    refine bind_ends (fun _ j' s' => j' = j ++ [.started ⟨symbol, o⟩] ∧ s = s')
      (.of_eq rfl ⟨rfl, rfl⟩) ?_
    rintro _ _ _ ⟨rfl, rfl⟩
    refine bind_ends (fun _ j' s' => BodyWalked ctx g ⟨symbol, o⟩ _ j' s')
      (hcompute _ _ hs (hr.started _)) ?_
    rintro e j₁ s₁ ⟨hr₁, name, start, inner, hcs, rfl⟩
    refine .of_eq rfl ⟨(hr₁.insert _ e).frame _, _, hcs, ?_⟩
    rw [walkAll_singleton, Call.walk, if_neg hstored, List.append_assoc, List.singleton_append]

theorem tokenEntry_ends {depth : Nat} {kind : TokenKind} (ho : o ≤ ctx.source.size)
    (hr : Recorded j s) :
    Ends (tokenEntry ctx depth kind ⟨tokenSymbol ctx kind, o⟩ j) s fun r s' =>
      BodyWalked ctx (.token kind) ⟨tokenSymbol ctx kind, o⟩ j r.2 s' := by
  obtain ⟨log, hentry⟩ :=
    tokenEntry_eq depth kind (show (⟨tokenSymbol ctx kind, o⟩ : Key).offset ≤ _ from ho) s
  refine bind_ends (fun _ j' s' => j' = j ++ [.tried kind.name (skipped ctx o).1] ∧ s' = s)
    (.of_eq rfl ⟨rfl, rfl⟩) ?_
  rintro _ _ _ ⟨rfl, rfl⟩
  exact lift_ends (.of_eq hentry ⟨(hr.attempted _ _).log log, _, _, [], .token, rfl⟩)

theorem matchToken_walks {depth : Nat} {kind : TokenKind} (ho : o ≤ ctx.source.size) :
    Walks ctx (.token kind) o (matchToken ctx depth kind o) :=
  remember_walks ho rfl fun _ _ _ hr => tokenEntry_ends ho hr

/-- A way to match rules that walks through their calls. -/
def Invoke.Walks (ctx : Context) (call : Invoke) : Prop :=
  ∀ id o, id < ctx.grammar.rules.size → o ≤ ctx.source.size →
    Journaled.Walks ctx (.rule id) o (call id o)

variable {call : Invoke}

theorem matchName_walks (hcall : call.Walks ctx) {depth : Nat} {name : Bytes}
    (ho : o ≤ ctx.source.size) : Walks ctx (.name name) o (matchName ctx call depth name o) := by
  have hfail : Calls ctx (.name name) o [.unknown name o] →
      Walks ctx (.name name) o (do attempt name o; return .fail) := by
    intro hcs j s _ hr
    refine bind_ends (fun _ j' s' => j' = j ++ [.tried name o] ∧ Recorded j' s')
      ((attempt_ends name o hr).mono fun _ _ h => h.2) ?_
    rintro _ _ s' ⟨rfl, hr'⟩
    exact .of_eq rfl ⟨hr', _, hcs, rfl⟩
  unfold matchName
  cases hfind : ctx.grammar.find? name with
  | some id => exact (hcall id o (find?_lt_size hfind) ho).of_calls fun _ => .name_rule hfind
  | none =>
    dsimp only
    cases hkind : TokenKind.ofName? name with
    | some kind =>
      dsimp only
      split
      · next hres =>
        refine hfail (.name_fail hfind fun kind' hkind' => ?_)
        cases hkind.symm.trans hkind'
        exact hres
      · next hres =>
        exact (matchToken_walks ho).of_calls fun _ => .name_token hfind hkind (by simpa using hres)
    | none => exact hfail (.name_fail hfind fun kind hkind' => by cases hkind.symm.trans hkind')

/-! #### Expressions -/

/-- Atoms without a name look at the text and do nothing else. -/
theorem scan_walks {l : Look} {found : Nat → Outcome} (hl : l.reach ≠ .beyond)
    (hcs : Calls ctx g o []) : Walks ctx g o (liftM (Eval.scan l found)) :=
  fun _ s _ hr => lift_ends (.of_eq (scan_apply hl s) ⟨hr.frame _, [], hcs, rfl⟩)

theorem matchAtom_walks (hcall : call.Walks ctx) {depth : Nat} (label : Option Bytes) (a : Atom)
    (ho : o ≤ ctx.source.size) :
    Walks ctx (.expr (.atom label a)) o (matchAtom ctx call depth a o) := by
  cases a with
  | rule name => exact (matchName_walks hcall ho).of_calls fun _ => .ruleAtom
  | token kind => exact (matchToken_walks ho).of_calls fun _ => .tokenAtom
  | charClass c => exact scan_walks (Scan.byte_inside ho c.accepts).ne_beyond .charClass
  | anyByte => exact scan_walks (Scan.byte_inside ho fun _ => true).ne_beyond .anyByte
  | literal text =>
    intro j s _ hr
    refine lift_ends (Ends.bind (fun start s' => start = (skipped ctx o).1 ∧ Recorded j s')
      (.of_eq (skip_apply ho s) ⟨rfl, hr.frame _⟩) ?_)
    rintro _ s' ⟨rfl, hr'⟩
    have hl := (Scan.literal_inside (skipped_linked ho).stop_le text (isWord text)).ne_beyond
    exact .of_eq (scan_apply hl s') ⟨hr'.frame _, [], .literal, rfl⟩

section Operators

variable {e : Expr} {body : Nat → Journaled Outcome}
  (hbody : ∀ o, o ≤ ctx.source.size → Records ctx (.expr e) o (body o))

include hbody

/-- Rounds of a repetition, of which enough are allowed. -/
theorem matchMany_ends {fuel count : Nat} {ps : Array Piece} (ho : o ≤ ctx.source.size)
    (hfuel : ctx.source.size - o < fuel) (hs : Sound ctx s.memo) (hr : Recorded j s) :
    Ends (matchMany body fuel count o ps j) s fun r s' => Walked ctx (.many e) o j r.2 s' := by
  induction fuel generalizing count o ps s j with
  | zero => omega
  | succ fuel ih =>
    rw [matchMany]
    refine bind_ends (fun out j' s' => Followed ctx (.expr e) o s out s'
      ∧ Walked ctx (.expr e) o j j' s') (hbody o ho j s hs hr) ?_
    rintro out j₁ s₁ ⟨⟨hs₁, tr, hd, -⟩, hr₁, cs, hcs, rfl⟩
    cases out with
    | fail => exact .of_eq rfl ⟨hr₁, cs, .many_last hd (fun _ _ h => nomatch h) hcs, rfl⟩
    | ok stop y =>
      have hb := hd.bounds ho rfl
      dsimp only
      split
      · next heq =>
        subst heq
        exact .of_eq rfl ⟨hr₁, cs, .many_last hd (fun _ _ h => by cases h; rfl) hcs, rfl⟩
      · next hne =>
        -- the round has moved on, so one round less is enough for what is left of the text
        refine (ih (o := stop) hb.2 (by omega) hs₁ hr₁).mono ?_
        rintro r s₂ ⟨hr₂, cs', hcs', hj⟩
        exact ⟨hr₂, _, .many_more hd hne hcs hcs', by rw [hj, walkAll_append]⟩

theorem matchOperator_walks (label : Option Bytes) (op : Operator) (ho : o ≤ ctx.source.size) :
    Walks ctx (.expr (.apply label op e)) o (matchOperator ctx op body o) := by
  intro j s hs hr
  unfold matchOperator
  cases op with
  | star | plus =>
    refine bind_ends (fun _ j' s' => Walked ctx (.many e) o j j' s')
      (matchMany_ends hbody ho (by omega) hs hr) ?_
    rintro ⟨count, stop, ps⟩ j₁ s₁ ⟨hr₁, cs, hcs, rfl⟩
    exact .of_eq rfl ⟨hr₁, cs, .repeated rfl hcs, rfl⟩
  | option | ahead | notAhead =>
    refine bind_ends (fun _ j' s' => Walked ctx (.expr e) o j j' s')
      ((hbody o ho j s hs hr).mono fun _ _ h => h.2) ?_
    rintro out j₁ s₁ ⟨hr₁, cs, hcs, rfl⟩
    cases out <;> exact .of_eq rfl ⟨hr₁, cs, .once rfl hcs, rfl⟩

end Operators

section Expressions

/-- A way to match rules with a journal: what it is without one, that this follows derivations, and that
it walks through the calls of rules. -/
structure Invoke.Keeps (ctx : Context) (call : Invoke) (call' : Parse.Invoke) : Prop where
  erases : ∀ id o, Erases (call id o) (call' id o)
  tracks : call'.Tracks ctx
  walks : call.Walks ctx

variable {call' : Parse.Invoke}

mutual

theorem matchExpr_records (h : Invoke.Keeps ctx call call') (depth : Nat) (e : Expr) {o : Nat}
    (ho : o ≤ ctx.source.size) : Records ctx (.expr e) o (matchExpr ctx call depth e o) := by
  refine Walks.records ?_ (.matchExpr h.erases depth e o) (matchExpr_tracks h.tracks depth e ho)
  match e with
  | .atom label a =>
    rw [matchExpr]
    exact matchAtom_walks h.walks label a ho
  | .apply label op e =>
    rw [matchExpr]
    exact matchOperator_walks (fun _ ho => matchExpr_records h depth e ho) label op ho
  | .seq label es =>
    rw [matchExpr]
    exact (matchSeq_walks h depth es ho #[]).of_calls fun _ => .seq
  | .choice label es =>
    rw [matchExpr]
    exact (matchChoice_walks h depth es ho).of_calls fun _ => .choice

theorem matchSeq_walks (h : Invoke.Keeps ctx call call') (depth : Nat) : ∀ (es : List Expr) {o : Nat},
    o ≤ ctx.source.size → ∀ ps, Walks ctx (.seq es) o (matchSeq ctx call depth es o ps)
  | [], o, ho, ps => by
    rw [matchSeq]
    exact fun _ _ _ hr => .of_eq rfl ⟨hr, [], .seq_nil, rfl⟩
  | e :: es, o, ho, ps => by
    intro j s hs hr
    rw [matchSeq]
    refine bind_ends (fun out j' s' => Followed ctx (.expr e) o s out s'
      ∧ Walked ctx (.expr e) o j j' s') (matchExpr_records h depth e ho j s hs hr) ?_
    rintro out j₁ s₁ ⟨⟨hs₁, tr, hd, -⟩, hr₁, cs, hcs, rfl⟩
    cases out with
    | fail => exact .of_eq rfl ⟨hr₁, cs, .seq_fail hd hcs, rfl⟩
    | ok m y =>
      refine (matchSeq_walks h depth es (hd.bounds ho rfl).2 _ _ _ hs₁ hr₁).mono ?_
      rintro r s₂ ⟨hr₂, cs', hcs', hj⟩
      exact ⟨hr₂, _, .seq_cons hd hcs hcs', by rw [hj, walkAll_append]⟩

theorem matchChoice_walks (h : Invoke.Keeps ctx call call') (depth : Nat) : ∀ (es : List Expr) {o : Nat},
    o ≤ ctx.source.size → Walks ctx (.choice es) o (matchChoice ctx call depth es o)
  | [], o, ho => by
    rw [matchChoice]
    exact fun _ _ _ hr => .of_eq rfl ⟨hr, [], .choice_nil, rfl⟩
  | e :: es, o, ho => by
    intro j s hs hr
    rw [matchChoice]
    refine bind_ends (fun out j' s' => Followed ctx (.expr e) o s out s'
      ∧ Walked ctx (.expr e) o j j' s') (matchExpr_records h depth e ho j s hs hr) ?_
    rintro out j₁ s₁ ⟨⟨hs₁, tr, hd, -⟩, hr₁, cs, hcs, rfl⟩
    cases out with
    | fail =>
      refine (matchChoice_walks h depth es ho _ _ hs₁ hr₁).mono ?_
      rintro r s₂ ⟨hr₂, cs', hcs', hj⟩
      exact ⟨hr₂, _, .choice_next hd hcs hcs', by rw [hj, walkAll_append]⟩
    | ok m y => exact .of_eq rfl ⟨hr₁, cs, .choice_first hd hcs, rfl⟩

end

/-! #### Rules -/

theorem ruleEntry_ends (h : Invoke.Keeps ctx call call') (depth : Nat) {id : Nat}
    (hid : id < ctx.grammar.rules.size) (ho : o ≤ ctx.source.size) (hs : Sound ctx s.memo)
    (hr : Recorded j s) :
    Ends (ruleEntry ctx call depth ⟨id, o⟩ j) s fun r s' =>
      BodyWalked ctx (.rule id) ⟨id, o⟩ j r.2 s' := by
  have hrule : ctx.grammar.rules[id]? = some ctx.grammar.rules[id] := Array.getElem?_eq_getElem hid
  unfold ruleEntry
  refine bind_ends (fun rule j' s' => rule = ctx.grammar.rules[id] ∧ j = j' ∧ s = s') ?_ ?_
  · simp only [ruleOf, hrule]
    exact .of_eq rfl ⟨rfl, rfl, rfl⟩
  rintro _ _ _ ⟨rfl, rfl, rfl⟩
  refine bind_ends (fun _ j' s' => j = j' ∧ s' = { s with frame := {} }) (.of_eq rfl ⟨rfl, rfl⟩) ?_
  rintro outer _ _ ⟨rfl, rfl⟩
  refine bind_ends (fun start j' s' => start = (skipped ctx o).1 ∧ j = j' ∧ s'.memo = s.memo
    ∧ Recorded j s') (lift_ends (.of_eq (skip_apply ho _) ⟨rfl, rfl, rfl, hr.frame _⟩)) ?_
  rintro _ _ s₁ ⟨rfl, rfl, hmemo₁, hr₁⟩
  refine bind_ends (fun _ j' s' => s'.memo = s.memo
    ∧ j' = j ++ [.tried ctx.grammar.rules[id].name (skipped ctx o).1] ∧ Recorded j' s') ?_ ?_
  · refine (attempt_ends _ _ hr₁).mono ?_
    rintro r s₂ ⟨rfl, hj, hr₂⟩
    exact ⟨(s₁.attempted_memo _ _).trans hmemo₁, hj, hr₂⟩
  rintro _ _ s₂ ⟨hmemo₂, rfl, hr₂⟩
  refine bind_ends (fun _ j' s' => Walked ctx (.expr ctx.grammar.rules[id].pattern)
    (skipped ctx o).1 _ j' s') ((matchExpr_records h depth _ (skipped_linked ho).stop_le _ _
    (hmemo₂ ▸ hs) hr₂).mono fun _ _ h => h.2) ?_
  rintro out _ s₃ ⟨hr₃, cs, hcs, rfl⟩
  exact .of_eq rfl ⟨hr₃.frame _, _, _, cs, .rule hrule hcs, rfl⟩

end Expressions

/-- Matching a rule walks through its calls, whatever is remembered and however deep it may go. -/
theorem invoke_walks (ctx : Context) (budget depth : Nat) : (invoke ctx budget depth).Walks ctx := by
  induction budget generalizing depth with
  | zero =>
    intro id o hid ho
    refine remember_walks ho (by simp [Goal.symbol?, hid]) fun j s _ _ => ?_
    refine bind_ends (fun _ _ _ => True) ?_ fun rule j' s' _ => ⟨_, _, rfl⟩
    simp only [ruleOf, Array.getElem?_eq_getElem hid]
    exact trivial
  | succ budget ih =>
    intro id o hid ho
    exact remember_walks ho (by simp [Goal.symbol?, hid]) fun _ _ hs hr =>
      ruleEntry_ends ⟨.invoke ctx budget _, invoke_tracks ctx budget _, ih _⟩ _ hid ho hs hr

/-- The journal of a document is that of the walk through the calls of its start, and goes with the state
in which the document is left.  The document fails if its start does. -/
theorem document_walk (ctx : Context) (maxDepth : Nat) (name : Bytes) :
    Ends (document ctx maxDepth name []) {} fun r s' => Walked ctx (.name name) 0 [] r.2 s'
      ∧ (r.1 = .failed ↔ ∃ tr, Derives ctx (.name name) 0 .fail tr) := by
  refine bind_ends (fun out j' s' => Followed ctx (.name name) 0 {} out s'
    ∧ Walked ctx (.name name) 0 [] j' s') ((matchName_walks (invoke_walks ctx maxDepth 0)
    (Nat.zero_le _)).records (.matchName (.invoke ctx maxDepth 0) 0 name 0)
    (matchName_tracks (invoke_tracks ctx maxDepth 0) (Nat.zero_le _)) [] {} (sound_empty ctx) .start) ?_
  rintro out j s₁ ⟨⟨-, tr, hd, -⟩, hr, hcalls⟩
  cases out with
  | fail => exact .of_eq rfl ⟨⟨hr, hcalls⟩, iff_of_true rfl ⟨tr, hd⟩⟩
  | ok stop y =>
    have hb := hd.bounds (Nat.zero_le _) rfl
    have hfail : ¬∃ tr, Derives ctx (.name name) 0 .fail tr := fun ⟨_, hd'⟩ => nomatch (hd.unique hd').1
    refine lift_ends (Ends.bind (fun _ s' => Recorded j s')
      (.of_eq (skipRest_apply hb.2 s₁) (hr.frame _)) ?_)
    intro rest s₂ hr₂
    split <;> exact .of_eq rfl ⟨⟨hr₂, hcalls⟩, iff_of_false nofun hfail⟩

end Journaled

end Parse

end Packrat
