import Packrat.Parse.Parser
import Packrat.Proofs.Grammar.Texts

/-!
Parsing with a grammar compiled from its own text.

The matcher puts the values of a sequence together one after the other, so it does not matter
whether some of its items stand in a sequence of their own (`Parse.matchSeq_splice`).  A grammar
with the sequences of its patterns spliced makes the same trees, errors and log entries
(`Parser.parse_flatten`); together with the round trip of grammar texts this says that the text of a
compiled grammar means what the grammar means (`Grammar.compile_text_behaves`).
-/

namespace Packrat

namespace Parse

variable {ctx : Context} {call : Invoke} {depth : Nat}

/-- Goes on behind the items of a sequence, with what they yielded put behind `ps`. -/
def Outcome.goOn (ps : Array Piece) (next : Nat → Array Piece → Eval Outcome) :
    Outcome → Eval Outcome
  | fail => return .fail
  | ok stop y => next stop (ps ++ y.pieces)

theorem matchSeq_cons (e : Expr) (es : List Expr) (o : Nat) (ps : Array Piece) :
    matchSeq ctx call depth (e :: es) o ps
      = matchExpr ctx call depth e o >>= Outcome.goOn ps (matchSeq ctx call depth es) := by
  rw [matchSeq]
  refine bind_congr fun outcome => ?_
  cases outcome <;> rfl

/-- Items that are matched in front of others. -/
theorem matchSeq_append (items es : List Expr) (o : Nat) (ps qs : Array Piece) :
    matchSeq ctx call depth (items ++ es) o (ps ++ qs)
      = matchSeq ctx call depth items o qs >>= Outcome.goOn ps (matchSeq ctx call depth es) := by
  induction items generalizing o qs with
  | nil => rw [List.nil_append, matchSeq, pure_bind, Outcome.goOn, Yield.pieces]
  | cons e items ih =>
    rw [List.cons_append, matchSeq_cons, matchSeq_cons, bind_assoc]
    refine bind_congr fun outcome => ?_
    cases outcome with
    | fail => rw [Outcome.goOn, Outcome.goOn, pure_bind, Outcome.goOn]
    | ok stop y => rw [Outcome.goOn, Outcome.goOn, Array.append_assoc, ih]

/-- An item may be given as the pieces of the sequence that it is. -/
theorem matchSeq_splice (e : Expr) (es : List Expr) (o : Nat) (ps : Array Piece) :
    matchSeq ctx call depth (e.pieces ++ es) o ps = matchSeq ctx call depth (e :: es) o ps := by
  cases e with
  | seq l items =>
    cases l with
    | none =>
      have happend := @matchSeq_append ctx call depth items es o ps #[]
      rw [Array.append_empty] at happend
      rw [Expr.pieces, happend, matchSeq_cons, matchExpr]
    | some l => rfl
  | _ => rfl

/-! ### The grammar with its sequences spliced -/

/-- The context with the sequences of all patterns spliced. -/
def Context.flatten (ctx : Context) (notes : List Grammar.Note) : Context :=
  { ctx with grammar := ctx.grammar.flatten notes }

variable {notes : List Grammar.Note}

theorem size_flatten : (ctx.flatten notes).grammar.rules.size = ctx.grammar.rules.size :=
  Array.size_map

theorem matchToken_flatten (kind : TokenKind) (o : Nat) :
    matchToken (ctx.flatten notes) depth kind o = matchToken ctx depth kind o := by
  have hsymbol : tokenSymbol (ctx.flatten notes) kind = tokenSymbol ctx kind := by
    rw [tokenSymbol, tokenSymbol, size_flatten]
  rw [matchToken, matchToken, hsymbol]
  rfl

theorem matchName_flatten (name : Bytes) (o : Nat) :
    matchName (ctx.flatten notes) call depth name o = matchName ctx call depth name o := by
  have hfind : (ctx.flatten notes).grammar.find? name = ctx.grammar.find? name :=
    Grammar.find?_flatten name
  simp only [matchName, hfind, matchToken_flatten]

theorem matchAtom_flatten (a : Atom) (o : Nat) :
    matchAtom (ctx.flatten notes) call depth a o = matchAtom ctx call depth a o := by
  cases a with
  | rule name => exact matchName_flatten name o
  | token kind => exact matchToken_flatten kind o
  | _ => rfl

mutual

/-- Splicing does not change what an expression matches. -/
theorem matchExpr_flatten : ∀ (e : Expr) (o : Nat),
    matchExpr (ctx.flatten notes) call depth e.flatten o = matchExpr ctx call depth e o
  | .atom _ a, o => by
    rw [Expr.flatten, matchExpr, matchExpr]
    exact matchAtom_flatten a o
  | .apply _ op e, o => by
    have hbody : (fun o => matchExpr (ctx.flatten notes) call depth e.flatten o)
        = fun o => matchExpr ctx call depth e o := funext (matchExpr_flatten e)
    rw [Expr.flatten, matchExpr, matchExpr, hbody]
    rfl
  | .seq _ items, o => by
    rw [Expr.flatten, matchExpr, matchExpr]
    exact matchSeq_spliceAll items o #[]
  | .choice _ items, o => by
    rw [Expr.flatten, matchExpr, matchExpr]
    exact matchChoice_flattenAll items o

theorem matchSeq_spliceAll : ∀ (es : List Expr) (o : Nat) (ps : Array Piece),
    matchSeq (ctx.flatten notes) call depth (Expr.spliceAll es) o ps
      = matchSeq ctx call depth es o ps
  | [], o, ps => by rw [Expr.spliceAll, matchSeq, matchSeq]
  | e :: es, o, ps => by
    rw [Expr.spliceAll, matchSeq_splice, matchSeq_cons, matchSeq_cons, matchExpr_flatten e,
      show matchSeq (ctx.flatten notes) call depth (Expr.spliceAll es)
        = matchSeq ctx call depth es from funext₂ (matchSeq_spliceAll es)]

theorem matchChoice_flattenAll : ∀ (es : List Expr) (o : Nat),
    matchChoice (ctx.flatten notes) call depth (Expr.flattenAll es) o
      = matchChoice ctx call depth es o
  | [], o => by rw [Expr.flattenAll, matchChoice, matchChoice]
  | e :: es, o => by
    rw [Expr.flattenAll, matchChoice, matchChoice, matchExpr_flatten e]
    simp only [matchChoice_flattenAll es]

end

theorem ruleOf_flatten (id : Nat) :
    ruleOf (ctx.flatten notes) id = Rule.flatten <$> ruleOf ctx id := by
  have hid : (ctx.flatten notes).grammar.rules[id]? = (ctx.grammar.rules[id]?).map Rule.flatten :=
    Array.getElem?_map
  rw [ruleOf, ruleOf, hid]
  cases ctx.grammar.rules[id]? <;> rfl

theorem ruleEntry_flatten (key : Key) :
    ruleEntry (ctx.flatten notes) call depth key = ruleEntry ctx call depth key := by
  rw [ruleEntry, ruleEntry, ruleOf_flatten, bind_map_left]
  refine bind_congr fun r => ?_
  simp only [Rule.flatten, matchExpr_flatten]
  rfl

theorem invoke_flatten (budget : Nat) :
    invoke (ctx.flatten notes) budget depth = invoke ctx budget depth := by
  induction budget generalizing depth with
  | zero =>
    funext id o
    rw [invoke, invoke, ruleOf_flatten, bind_map_left]
    rfl
  | succ budget ih =>
    funext id o
    rw [invoke, invoke, ih, ruleEntry_flatten]

end Parse

namespace Parser

open Parse

variable {g : Grammar} {notes : List Grammar.Note}

theorem declares_flatten (name : Bytes) : (g.flatten notes).declares name = g.declares name :=
  congrArg Option.isSome (Grammar.find?_flatten name)

theorem start_flatten : (g.flatten notes).start = g.start := by
  have hfirst : (g.flatten notes).rules[0]? = (g.rules[0]?).map Rule.flatten := Array.getElem?_map
  simp only [Grammar.start, declares_flatten, hfirst]
  rw [show (g.flatten notes).chosenStart = g.chosenStart from rfl]
  cases g.rules[0]? <;> rfl

theorem document_flatten (ctx : Context) (maxDepth : Nat) (name : Bytes) :
    document (ctx.flatten notes) maxDepth name = document ctx maxDepth name := by
  rw [document, document, matchName_flatten, invoke_flatten]
  rfl

/-- Splicing does not change what a parse gives, nor what it logs. -/
theorem parse_flatten {p p' : Parser} (hg : p'.grammar = p.grammar.flatten notes)
    (hdepth : p'.maxDepth = p.maxDepth) (source : Source) : p'.parse source = p.parse source := by
  obtain ⟨g', maxDepth, hleft⟩ := p'
  obtain rfl : maxDepth = p.maxDepth := hdepth
  obtain rfl : g' = p.grammar.flatten notes := hg
  have hdocument : document ⟨p.grammar.flatten notes, source⟩ p.maxDepth p.grammar.start
      = document ⟨p.grammar, source⟩ p.maxDepth p.grammar.start :=
    document_flatten ⟨p.grammar, source⟩ p.maxDepth p.grammar.start
  rw [parse, parse, parseWith, parseWith]
  simp only [start_flatten, declares_flatten, hdocument]
  rfl

/-! ### Behaviour -/

/-- Parsers, or the refusals to make them, that cannot be told apart. -/
def Agree : Except GrammarError Parser → Except GrammarError Parser → Prop
  | .error e, .error e' => e = e'
  | .ok p, .ok p' => ∀ source, p.parse source = p'.parse source
  | _, _ => False

theorem make_of_nil (h : g.leftRecursive = []) (maxDepth : Nat) :
    make g maxDepth = .ok ⟨g, maxDepth, h⟩ := by
  unfold make
  split
  · rfl
  · next hcons => exact absurd h hcons

theorem make_of_ne_nil (h : g.leftRecursive ≠ []) (maxDepth : Nat) :
    make g maxDepth = .error (.leftRecursive g.name g.leftRecursive) := by
  unfold make
  split
  · next hnil => exact absurd hnil h
  · rfl

theorem make_flatten (h : ∀ r ∈ g.rules, r.Compiled) (maxDepth : Nat) :
    Agree (make g maxDepth) (make (g.flatten notes) maxDepth) := by
  have hleft : (g.flatten notes).leftRecursive = g.leftRecursive :=
    Grammar.leftRecursive_flatten h
  by_cases hnil : g.leftRecursive = []
  · rw [make_of_nil hnil, make_of_nil (hleft.trans hnil)]
    exact fun source => Eq.symm (@parse_flatten notes ⟨g, maxDepth, hnil⟩
      ⟨g.flatten notes, maxDepth, hleft.trans hnil⟩ rfl rfl source)
  · rw [make_of_ne_nil hnil, make_of_ne_nil (hleft ▸ hnil), hleft]
    rfl

end Parser

/-- **Printing keeps the meaning.** The text of a compiled grammar is compiled again without passing over
a line; the grammar that it gives has the same rules under the same numbers, the same text, and parsers
for it cannot be told from those for the first one. -/
theorem Grammar.text_keeps_meaning {text name : Bytes} {log : Log} {g : Grammar}
    (h : ((compile text name).run.run log).1 = .ok g) :
    ∃ g', (∀ log', ((compile g.text name).run.run log').1 = .ok g')
      ∧ (∀ line, .skippedLine line ∉ g'.notes)
      ∧ g'.names = g.names ∧ (∀ n, g'.find? n = g.find? n)
      ∧ g'.text = g.text
      ∧ ∀ maxDepth, Parser.Agree (Parser.make g maxDepth) (Parser.make g' maxDepth) := by
  have hg := compiled_compile h
  obtain ⟨notes, hcompile, hnotes⟩ := compile_text hg
  exact ⟨g.flatten notes, hcompile, hnotes, names_flatten, find?_flatten, text_flatten hg.rules,
    Parser.make_flatten hg.rules⟩

namespace Grammar

/-- A sequence that begins with a sequence. -/
def nestedPattern : Expr :=
  .seq none [.seq none [.literal [97], .atom none (.rule [116])], .literal [99]]

/-- The text `s <- ('a' t) 'c'`, `t <- 'b'?`. -/
def nestedText : Bytes := Bytes.ascii "s <- ('a' t) 'c'\nt <- 'b'?\n"

def nestedGrammar : Grammar :=
  { name := [],
    rules := #[.plain [115] nestedPattern, .plain [116] (.apply none .option (.literal [98]))] }

theorem withRule_nested :
    ((withRule { name := [] } [115] nestedPattern).withRule [116]
      (.apply none .option (.literal [98]))) = nestedGrammar := by
  have hfirst : withRule { name := [] } [115] nestedPattern
      = { name := [], rules := #[.plain [115] nestedPattern] } := by
    rw [withRule, if_neg (by decide), add_of_find?_eq_none (find?_eq_none_iff.mpr (by decide))]
    rfl
  rw [hfirst, withRule, if_neg (by decide),
    add_of_find?_eq_none (find?_eq_none_iff.mpr (by decide))]
  rfl

theorem compile_nestedText : ((compile nestedText []).run.run #[]).1 = .ok nestedGrammar := by
  have hlines : logicalLines nestedText
      = [Bytes.ascii "s <- ('a' t) 'c'", Bytes.ascii "t <- 'b'?"] := by decide
  obtain ⟨log, hs⟩ := addLine_of_read (g := { name := [] })
    (show splitRule? (Bytes.ascii "s <- ('a' t) 'c'") = some ([115], Bytes.ascii "('a' t) 'c'") by
      decide)
    (show Expr.read (Bytes.ascii "('a' t) 'c'") = .ok nestedPattern by rfl) #[]
  obtain ⟨log', ht⟩ := addLine_of_read (g := withRule { name := [] } [115] nestedPattern)
    (show splitRule? (Bytes.ascii "t <- 'b'?") = some ([116], Bytes.ascii "'b'?") by decide)
    (show Expr.read (Bytes.ascii "'b'?") = .ok (.apply none .option (.literal [98])) by rfl) log
  have hfold : ((logicalLines nestedText).foldlM addLine { name := [] }).run.run #[]
      = (.ok nestedGrammar, log') := by
    rw [hlines, List.foldlM_cons, build_bind_of_ok hs, List.foldlM_cons, build_bind_of_ok ht,
      withRule_nested]
    rfl
  exact compile_of_foldlM hfold

/-- The text of the grammar with the nested sequence does not show the nesting. -/
theorem nestedText_keeps_meaning :
    ((compile nestedText []).run.run #[]).1 = .ok nestedGrammar
      ∧ ∃ g', (∀ log, ((compile nestedGrammar.text []).run.run log).1 = .ok g')
        ∧ (∀ line, .skippedLine line ∉ g'.notes)
        ∧ g'.names = nestedGrammar.names ∧ (∀ n, g'.find? n = nestedGrammar.find? n)
        ∧ g'.text = nestedGrammar.text
        ∧ ∀ maxDepth, Parser.Agree (Parser.make nestedGrammar maxDepth) (Parser.make g' maxDepth) :=
  ⟨compile_nestedText, text_keeps_meaning compile_nestedText⟩

end Grammar

end Packrat
