import Packrat.Grammar.Basic

/-!
Putting a grammar together step by step, without a grammar text.

An assembly has a current rule, the one begun last; its pattern, its kind and the type of its nodes
are set afterwards.  `Assembly.finish` gives the grammar, unless something is wrong with it.
-/

namespace Packrat

namespace Grammar

/-- A grammar that is being put together. -/
structure Assembly where
  grammar : Grammar
  /-- The number of the current rule. -/
  current : Option Nat := none

namespace Assembly

def ofName (name : Bytes) : Assembly := { grammar := { name } }

/-- Begins a rule with an empty pattern, in place of any earlier rule with that name. -/
def beginRule (a : Assembly) (name description : Bytes) : Assembly :=
  let g := a.grammar.define
    { name, pattern := .seq none [], nodeType := [], isFragment := false, description }
  { grammar := g, current := g.find? name }

/-- Changes the current rule. -/
def change (a : Assembly) (f : Rule → Rule) : Except GrammarError Assembly :=
  match a.current.bind fun id => a.grammar.rules[id]? with
  | none => .error .noRule
  | some r => .ok { a with grammar := a.grammar.define (f r) }

def setPattern (a : Assembly) (e : Expr) : Except GrammarError Assembly :=
  a.change ({ · with pattern := e })

def setFragment (a : Assembly) (isFragment : Bool) : Except GrammarError Assembly :=
  a.change ({ · with isFragment := isFragment })

/-- Sets the type of the nodes; an empty one is the name of the rule. -/
def setNodeType (a : Assembly) (nodeType : Bytes) : Except GrammarError Assembly :=
  a.change ({ · with nodeType := nodeType })

def setStart (a : Assembly) (name : Bytes) : Assembly :=
  { a with grammar := { a.grammar with chosenStart := some name } }

def setSkipsIgnored (a : Assembly) (skips : Bool) : Assembly :=
  { a with grammar := { a.grammar with skipsIgnored := skips } }

def setComments (a : Assembly) (sources : List Bytes) : Except GrammarError Assembly :=
  (a.grammar.withComments sources).map fun g => { a with grammar := g }

/-- The grammar, if nothing is wrong with it. -/
def finish (a : Assembly) : Except GrammarError Grammar :=
  match a.grammar.problems with
  | [] => .ok a.grammar
  | problems => .error (.invalid problems)

end Assembly

end Grammar

end Packrat
