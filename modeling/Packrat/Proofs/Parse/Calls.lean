import Packrat.Proofs.Parse.Memo

/-!
What a match tries, said without a memory.

A match tries rules and tokens, and names that stand for nothing.  A rule that is tried tries others in
turn, so what a match tries is a forest: `Calls ctx g o cs` says that the goal `g`, matched at the offset
`o`, tries the forest `cs`, in this order.  As in a derivation there is no memory: a rule that is asked
for again is tried again, and predicates and alternatives that are given up count like everything else.

What has a derivation has one forest (`Derives.exists_calls`, `Calls.unique`).  So a rule or token at an
offset is the same call wherever it stands (`Calls.key_inj`), and it is not tried once more while it is
being tried (`Calls.not_mem_inner`), since the call would be a part of itself.
-/

namespace Packrat

namespace Parse

/-! ### Calls -/

/-- Something that is tried. -/
inductive Call where
  /-- A rule or token that begins at an offset, and what it tries in turn. -/
  | body (name : Bytes) (start : Nat) (key : Key) (inner : List Call)
  /-- A name that stands for nothing. -/
  | unknown (name : Bytes) (o : Nat)

namespace Call

def name : Call → Bytes
  | body name _ _ _ => name
  | unknown name _ => name

/-- The offset at which something is tried: behind ignored text, unless it stands for nothing. -/
def offset : Call → Nat
  | body _ start _ _ => start
  | unknown _ o => o

/-- The key under which the outcome is remembered. -/
def key? : Call → Option Key
  | body _ _ key _ => some key
  | unknown _ _ => none

mutual

/-- A call and all calls inside of it, in the order in which they begin. -/
def parts : Call → List Call
  | body name start key inner => body name start key inner :: partsAll inner
  | unknown name o => [unknown name o]

def partsAll : List Call → List Call
  | [] => []
  | c :: cs => parts c ++ partsAll cs

end

variable {c c' : Call} {cs cs' : List Call} {name : Bytes} {start : Nat} {key : Key}
  {inner : List Call}

theorem partsAll_append (cs cs' : List Call) : partsAll (cs ++ cs') = partsAll cs ++ partsAll cs' := by
  induction cs with
  | nil => rfl
  | cons c cs ih => rw [List.cons_append, partsAll, partsAll, ih, List.append_assoc]

theorem mem_parts_self (c : Call) : c ∈ c.parts := by
  cases c with
  | body name start key inner => exact List.mem_cons_self
  | unknown name o => exact List.mem_singleton_self _

theorem inner_sublist (name : Bytes) (start : Nat) (key : Key) (inner : List Call) :
    (partsAll inner).Sublist (body name start key inner).parts := by
  rw [parts]
  exact List.sublist_cons_self _ _

mutual

/-- The parts of a part are parts. -/
theorem parts_sublist : ∀ c : Call, c' ∈ c.parts → c'.parts.Sublist c.parts
  | body name start key inner, h => by
    rw [parts, List.mem_cons] at h
    rcases h with rfl | h
    · exact .refl _
    · exact (partsAll_sublist inner h).trans (inner_sublist name start key inner)
  | unknown name o, h => by
    rw [parts, List.mem_singleton] at h
    exact h ▸ .refl _

theorem partsAll_sublist : ∀ cs : List Call, c' ∈ partsAll cs → c'.parts.Sublist (partsAll cs)
  | [], h => by cases h
  | c :: cs, h => by
    rw [partsAll, List.mem_append] at h
    rw [partsAll]
    rcases h with h | h
    · exact (parts_sublist c h).trans (List.sublist_append_left _ _)
    · exact (partsAll_sublist cs h).trans (List.sublist_append_right _ _)

end

/-- A call is not tried inside of itself. -/
theorem not_mem_inner : body name start key inner ∉ partsAll inner := by
  intro h
  have hle := (partsAll_sublist inner h).length_le
  rw [parts, List.length_cons] at hle
  omega

end Call

open Call (partsAll partsAll_append partsAll_sublist inner_sublist)

/-- Whether an operator matches its operand as often as it can. -/
def repeats : Operator → Bool
  | .star | .plus => true
  | .option | .ahead | .notAhead => false

/-- A goal, matched from an offset on, tries a forest of calls. -/
inductive Calls (ctx : Context) : Goal → Nat → List Call → Prop
  -- atoms
  | literal {label text o} : Calls ctx (.expr (.atom label (.literal text))) o []
  | charClass {label c o} : Calls ctx (.expr (.atom label (.charClass c))) o []
  | anyByte {label o} : Calls ctx (.expr (.atom label .anyByte)) o []
  | ruleAtom {label name o cs} :
      Calls ctx (.name name) o cs → Calls ctx (.expr (.atom label (.rule name))) o cs
  | tokenAtom {label kind o cs} :
      Calls ctx (.token kind) o cs → Calls ctx (.expr (.atom label (.token kind))) o cs
  -- operators
  | repeated {label op e o cs} : repeats op = true →
      Calls ctx (.many e) o cs → Calls ctx (.expr (.apply label op e)) o cs
  | once {label op e o cs} : repeats op = false →
      Calls ctx (.expr e) o cs → Calls ctx (.expr (.apply label op e)) o cs
  -- repetitions: the match that fails or stays in place ends them
  | many_last {e o out tr cs} : Derives ctx (.expr e) o out tr → (∀ m y, out = .ok m y → m = o) →
      Calls ctx (.expr e) o cs → Calls ctx (.many e) o cs
  | many_more {e o m y tr cs cs'} : Derives ctx (.expr e) o (.ok m y) tr → m ≠ o →
      Calls ctx (.expr e) o cs → Calls ctx (.many e) m cs' → Calls ctx (.many e) o (cs ++ cs')
  -- sequences
  | seq {label es o cs} : Calls ctx (.seq es) o cs → Calls ctx (.expr (.seq label es)) o cs
  | seq_nil {o} : Calls ctx (.seq []) o []
  | seq_fail {e es o tr cs} : Derives ctx (.expr e) o .fail tr →
      Calls ctx (.expr e) o cs → Calls ctx (.seq (e :: es)) o cs
  | seq_cons {e es o m y tr cs cs'} : Derives ctx (.expr e) o (.ok m y) tr →
      Calls ctx (.expr e) o cs → Calls ctx (.seq es) m cs' → Calls ctx (.seq (e :: es)) o (cs ++ cs')
  -- ordered choices
  | choice {label es o cs} : Calls ctx (.choice es) o cs → Calls ctx (.expr (.choice label es)) o cs
  | choice_nil {o} : Calls ctx (.choice []) o []
  | choice_first {e es o m y tr cs} : Derives ctx (.expr e) o (.ok m y) tr →
      Calls ctx (.expr e) o cs → Calls ctx (.choice (e :: es)) o cs
  | choice_next {e es o tr cs cs'} : Derives ctx (.expr e) o .fail tr →
      Calls ctx (.expr e) o cs → Calls ctx (.choice es) o cs' →
      Calls ctx (.choice (e :: es)) o (cs ++ cs')
  -- names
  | name_rule {name id o cs} : ctx.grammar.find? name = some id →
      Calls ctx (.rule id) o cs → Calls ctx (.name name) o cs
  | name_token {name kind o cs} : ctx.grammar.find? name = none →
      TokenKind.ofName? name = some kind → kind.isReserved = false →
      Calls ctx (.token kind) o cs → Calls ctx (.name name) o cs
  | name_fail {name o} : ctx.grammar.find? name = none →
      (∀ kind, TokenKind.ofName? name = some kind → kind.isReserved = true) →
      Calls ctx (.name name) o [.unknown name o]
  -- rules and tokens
  | rule {id rule o cs} : ctx.grammar.rules[id]? = some rule →
      Calls ctx (.expr rule.pattern) (skipped ctx o).1 cs →
      Calls ctx (.rule id) o [.body rule.name (skipped ctx o).1 ⟨id, o⟩ cs]
  | token {kind o} :
      Calls ctx (.token kind) o [.body kind.name (skipped ctx o).1 ⟨tokenSymbol ctx kind, o⟩ []]

variable {ctx : Context} {g : Goal} {o : Nat} {cs cs' : List Call}

/-- What has a derivation tries a forest. -/
theorem Derives.exists_calls {out : Outcome} {tr : List Event} (h : Derives ctx g o out tr) :
    ∃ cs, Calls ctx g o cs := by
  induction h with
  | literal _ _ => exact ⟨_, .literal⟩
  | charClass _ _ => exact ⟨_, .charClass⟩
  | anyByte _ _ => exact ⟨_, .anyByte⟩
  | ruleAtom _ ih => exact ih.imp fun _ => .ruleAtom
  | tokenAtom _ ih => exact ih.imp fun _ => .tokenAtom
  | star _ ih | plus _ _ ih | plus_fail _ ih => exact ih.imp fun _ => .repeated rfl
  | option _ ih | option_fail _ ih | ahead _ ih | ahead_fail _ ih | notAhead _ ih
  | notAhead_fail _ ih => exact ih.imp fun _ => .once rfl
  | many_fail hd ih => exact ih.imp fun _ => .many_last hd fun _ _ h => nomatch h
  | many_stay hd ih => exact ih.imp fun _ => .many_last hd fun _ _ h => by cases h; rfl
  | many_more hd hne _ ih ihs =>
    obtain ⟨cs, hcs⟩ := ih
    exact ihs.imp' _ fun _ => .many_more hd hne hcs
  | seq _ ih => exact ih.imp fun _ => .seq
  | seq_nil => exact ⟨_, .seq_nil⟩
  | seq_fail hd ih => exact ih.imp fun _ => .seq_fail hd
  | seq_stop hd _ ih ihs | seq_cons hd _ ih ihs =>
    obtain ⟨cs, hcs⟩ := ih
    exact ihs.imp' _ fun _ => .seq_cons hd hcs
  | choice _ ih => exact ih.imp fun _ => .choice
  | choice_nil => exact ⟨_, .choice_nil⟩
  | choice_first hd ih => exact ih.imp fun _ => .choice_first hd
  | choice_next hd _ ih ihs =>
    obtain ⟨cs, hcs⟩ := ih
    exact ihs.imp' _ fun _ => .choice_next hd hcs
  | name_rule hfind _ ih => exact ih.imp fun _ => .name_rule hfind
  | name_token hfind hkind hres _ ih => exact ih.imp fun _ => .name_token hfind hkind hres
  | name_fail hfind hall => exact ⟨_, .name_fail hfind hall⟩
  | rule hrule _ _ _ ih => exact ih.imp' _ fun _ => .rule hrule
  | token _ _ => exact ⟨_, .token⟩

namespace Calls

/-- A goal tries one forest at an offset. -/
theorem unique (h : Calls ctx g o cs) (h' : Calls ctx g o cs') : cs = cs' := by
  induction h generalizing cs' with
  | literal => cases h'; rfl
  | charClass => cases h'; rfl
  | anyByte => cases h'; rfl
  | ruleAtom _ ih => cases h' with | ruleAtom h' => exact ih h'
  | tokenAtom _ ih => cases h' with | tokenAtom h' => exact ih h'
  | repeated hop _ ih =>
    cases h' with
    | repeated _ h' => exact ih h'
    | once hop' _ => cases hop.symm.trans hop'
  | once hop _ ih =>
    cases h' with
    | repeated hop' _ => cases hop.symm.trans hop'
    | once _ h' => exact ih h'
  | many_last hd hlast _ ih =>
    cases h' with
    | many_last _ _ h' => exact ih h'
    | many_more hd' hne _ _ => exact absurd (hlast _ _ (hd.unique hd').1) hne
  | many_more hd hne _ _ ih ihs =>
    cases h' with
    | many_last hd' hlast _ => exact absurd (hlast _ _ (hd'.unique hd).1) hne
    | many_more hd' _ h' hs' =>
      cases (hd.unique hd').1
      rw [ih h', ihs hs']
  | seq _ ih => cases h' with | seq h' => exact ih h'
  | seq_nil => cases h'; rfl
  | seq_fail hd _ ih =>
    cases h' with
    | seq_fail _ h' => exact ih h'
    | seq_cons hd' _ _ => cases (hd.unique hd').1
  | seq_cons hd _ _ ih ihs =>
    cases h' with
    | seq_fail hd' _ => cases (hd.unique hd').1
    | seq_cons hd' h' hs' =>
      cases (hd.unique hd').1
      rw [ih h', ihs hs']
  | choice _ ih => cases h' with | choice h' => exact ih h'
  | choice_nil => cases h'; rfl
  | choice_first hd _ ih =>
    cases h' with
    | choice_first _ h' => exact ih h'
    | choice_next hd' _ _ => cases (hd.unique hd').1
  | choice_next hd _ _ ih ihs =>
    cases h' with
    | choice_first hd' _ => cases (hd.unique hd').1
    | choice_next _ h' hs' => rw [ih h', ihs hs']
  | name_rule hfind _ ih =>
    cases h' with
    | name_rule hfind' h' => cases hfind.symm.trans hfind'; exact ih h'
    | name_token hfind' _ _ _ => cases hfind.symm.trans hfind'
    | name_fail hfind' _ => cases hfind.symm.trans hfind'
  | name_token hfind hkind hres _ ih =>
    cases h' with
    | name_rule hfind' _ => cases hfind.symm.trans hfind'
    | name_token _ hkind' _ h' => cases hkind.symm.trans hkind'; exact ih h'
    | name_fail _ hall => cases hres.symm.trans (hall _ hkind)
  | name_fail hfind hall =>
    cases h' with
    | name_rule hfind' _ => cases hfind.symm.trans hfind'
    | name_token _ hkind hres _ => cases hres.symm.trans (hall _ hkind)
    | name_fail _ _ => rfl
  | rule hrule _ ih =>
    cases h' with
    | rule hrule' h' =>
      cases hrule.symm.trans hrule'
      rw [ih h']
  | token => cases h'; rfl

end Calls

/-! ### All calls of a forest -/

/-- The names that a goal refers to. -/
def Goal.references : Goal → List Bytes
  | .expr e | .many e => e.references
  | .seq es | .choice es => Expr.referencesAll es
  | .name n => [n]
  | .rule _ | .token _ => []

/-- What holds of every rule and token, and of every name that is referred to and stands for nothing,
holds of all calls of a forest that is tried inside the text. -/
theorem Calls.forall_parts {P : Call → Prop} {Q : Bytes → Prop}
    (hnames : ∀ rule ∈ ctx.grammar.rules, ∀ name ∈ rule.pattern.references, Q name)
    (hrule : ∀ {id rule o cs}, o ≤ ctx.source.size → ctx.grammar.rules[id]? = some rule →
      Calls ctx (.rule id) o [.body rule.name (skipped ctx o).1 ⟨id, o⟩ cs] →
      P (.body rule.name (skipped ctx o).1 ⟨id, o⟩ cs))
    (htoken : ∀ {kind o}, o ≤ ctx.source.size →
      P (.body (TokenKind.name kind) (skipped ctx o).1 ⟨tokenSymbol ctx kind, o⟩ []))
    (hunknown : ∀ {name o}, o ≤ ctx.source.size → Q name → P (.unknown name o))
    (h : Calls ctx g o cs) (ho : o ≤ ctx.source.size) (hg : ∀ name ∈ g.references, Q name) :
    ∀ c ∈ partsAll cs, P c := by
  -- two forests one behind the other
  have happend : ∀ {cs cs' : List Call}, (∀ c ∈ partsAll cs, P c) → (∀ c ∈ partsAll cs', P c) →
      ∀ c ∈ partsAll (cs ++ cs'), P c := by
    intro cs cs' h h' c hc
    rw [partsAll_append, List.mem_append] at hc
    exact hc.elim (h c) (h' c)
  have hleft : ∀ {e es}, (∀ name ∈ Expr.referencesAll (e :: es), Q name) →
      ∀ name ∈ e.references, Q name :=
    fun hg name hname => hg name (List.mem_append_left _ hname)
  have hright : ∀ {e es}, (∀ name ∈ Expr.referencesAll (e :: es), Q name) →
      ∀ name ∈ Expr.referencesAll es, Q name :=
    fun hg name hname => hg name (List.mem_append_right _ hname)
  induction h with
  | literal | charClass | anyByte | seq_nil | choice_nil => exact fun _ hc => nomatch hc
  | ruleAtom _ ih | repeated _ _ ih | once _ _ ih | seq _ ih | choice _ ih => exact ih ho hg
  | tokenAtom _ ih => exact ih ho fun _ hname => nomatch hname
  | many_last _ _ _ ih => exact ih ho hg
  | many_more hd _ _ _ ih ihs => exact happend (ih ho hg) (ihs (hd.bounds ho rfl).2 hg)
  | seq_fail _ _ ih | choice_first _ _ ih => exact ih ho (hleft hg)
  | seq_cons hd _ _ ih ihs =>
    exact happend (ih ho (hleft hg)) (ihs (hd.bounds ho rfl).2 (hright hg))
  | choice_next _ _ _ ih ihs => exact happend (ih ho (hleft hg)) (ihs ho (hright hg))
  | name_rule _ _ ih | name_token _ _ _ _ ih => exact ih ho fun _ hname => nomatch hname
  | name_fail _ _ =>
    intro c hc
    obtain rfl := List.mem_singleton.1 hc
    exact hunknown ho (hg _ (List.mem_singleton_self _))
  | @rule id rule o cs hr h ih =>
    intro c hc
    rw [partsAll, Call.parts, partsAll, List.append_nil, List.mem_cons] at hc
    rcases hc with rfl | hc
    · exact hrule ho hr (.rule hr h)
    · exact ih (skipped_linked ho).stop_le (hnames rule (Array.mem_of_getElem? hr)) c hc
  | token =>
    intro c hc
    obtain rfl := List.mem_singleton.1 hc
    exact htoken ho

/-- A call under a key tries what the goal of the key tries at its offset. -/
def Call.Follows (ctx : Context) (c : Call) : Prop :=
  ∀ key, c.key? = some key → key.offset ≤ ctx.source.size
    ∧ ∃ g, g.symbol? ctx = some key.symbol ∧ Calls ctx g key.offset [c]

theorem symbol?_rule {id : Nat} {rule : Rule} (h : ctx.grammar.rules[id]? = some rule) :
    (Goal.rule id).symbol? ctx = some id := by
  obtain ⟨hid, -⟩ := Array.getElem?_eq_some_iff.1 h
  rw [Goal.symbol?, if_pos hid]

namespace Calls

theorem follows (h : Calls ctx g o cs) (ho : o ≤ ctx.source.size) :
    ∀ c ∈ partsAll cs, c.Follows ctx := by
  refine h.forall_parts (Q := fun _ => True) (fun _ _ _ _ => trivial) ?_ ?_ ?_ ho fun _ _ => trivial
  · rintro id rule o cs ho hr hcalls key ⟨⟩
    exact ⟨ho, _, symbol?_rule hr, hcalls⟩
  · rintro kind o ho key ⟨⟩
    exact ⟨ho, _, rfl, .token⟩
  · rintro name o - - key ⟨⟩

/-- Calls under the same key are the same. -/
theorem key_inj (h : Calls ctx g o cs) (ho : o ≤ ctx.source.size) {c c' : Call}
    (hc : c ∈ partsAll cs) (hc' : c' ∈ partsAll cs) {key : Key} (hkey : c.key? = some key)
    (hkey' : c'.key? = some key) : c = c' := by
  obtain ⟨-, g, hg, hcalls⟩ := h.follows ho c hc key hkey
  obtain ⟨-, g', hg', hcalls'⟩ := h.follows ho c' hc' key hkey'
  obtain rfl := Goal.symbol?_inj hg hg'
  exact List.singleton_inj.1 (hcalls.unique hcalls')

/-- A rule or token is not tried at an offset while it is being tried there. -/
theorem not_mem_inner (h : Calls ctx g o cs) (ho : o ≤ ctx.source.size) {name : Bytes} {start : Nat}
    {key : Key} {inner : List Call} (hc : .body name start key inner ∈ partsAll cs) {c : Call}
    (hinner : c ∈ partsAll inner) : c.key? ≠ some key := by
  intro hkey
  have hmem : c ∈ partsAll cs :=
    (partsAll_sublist cs hc).subset ((inner_sublist name start key inner).subset hinner)
  rw [h.key_inj ho hmem hc hkey rfl] at hinner
  exact Call.not_mem_inner hinner

/-- Nothing is tried behind the end of the text. -/
theorem offset_le (h : Calls ctx g o cs) (ho : o ≤ ctx.source.size) :
    ∀ c ∈ partsAll cs, c.offset ≤ ctx.source.size := by
  refine h.forall_parts (Q := fun _ => True) (fun _ _ _ _ => trivial) ?_ ?_ ?_ ho fun _ _ => trivial
  · exact fun ho _ _ => (skipped_linked ho).stop_le
  · exact fun ho => (skipped_linked ho).stop_le
  · exact fun ho _ => ho

end Calls

end Parse

end Packrat
