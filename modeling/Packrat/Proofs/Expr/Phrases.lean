import Packrat.Expr.Reader
import Mathlib.Data.List.Basic

/-!
The grammar of patterns, and the reader against it.

`Phrase part ts es` says that the tokens `ts` are a part of a pattern and stand for the expressions
`es`.  The reader finds nothing but phrases (`Reads.phrase`), and it finds every phrase behind which
no token could go on with it, given enough fuel (`Phrase.reads`).  So a pattern is read as `e` exactly
if its tokens are an ordered choice that stands for `e` (`phrase_of_readInput`,
`readInput_of_phrase`).
-/

namespace Packrat

namespace Expr

/-! ### Phrases -/

/-- The parts of a pattern. -/
inductive Part where
  | atom | repeated | item | items | choice

/-- What a sequence of items stands for. -/
def group (es : List Expr) : Expr := if es.isEmpty then literal [] else sequence es

/-- The tokens that are a part of a pattern, with the expressions that they stand for: one for an
atom, for an atom with its repetition and for an item, one for each item of a sequence, and one for
each alternative of a choice. -/
inductive Phrase : Part → List Token → List Expr → Prop
  | literal (quote : UInt8) (body : Bytes) :
      Phrase .atom [.quoted quote body] [Expr.literal (unescape body)]
  | charClass {body : Bytes} {e : Expr} : classOf body = .ok e →
      Phrase .atom [.bracket body] [e]
  | word {name : Bytes} : isName name → Phrase .atom [.word name] [ofWord name]
  | anyByte : Phrase .atom [.mark Byte.dot] [.atom none .anyByte]
  | parens {ts : List Token} {es : List Expr} : Phrase .choice ts es →
      Phrase .atom (.mark Byte.openParen :: ts ++ [.mark Byte.closeParen]) [alternatives es]
  | once {ts : List Token} {es : List Expr} : Phrase .atom ts es → Phrase .repeated ts es
  | repeated {ts : List Token} {t : Token} {op : Operator} {e : Expr} : Phrase .atom ts [e] →
      repetition? (some t) = some op → Phrase .repeated (ts ++ [t]) [.apply none op e]
  | bare {ts : List Token} {es : List Expr} : Phrase .repeated ts es → Phrase .item ts es
  | lookahead {ts : List Token} {t : Token} {mark : UInt8} {op : Operator} {e : Expr} :
      lookahead? (some t) = some (mark, op) → Phrase .repeated ts [e] →
      Phrase .item (t :: ts) [.apply none op e]
  | labelled {ts : List Token} {e : Expr} (name : Bytes) : Phrase .item ts [e] →
      Phrase .item (.label name :: ts) [e.withLabel name]
  | nothing : Phrase .items [] []
  | more {ts us : List Token} {e : Expr} {es : List Expr} : Phrase .item ts [e] →
      Phrase .items us es → Phrase .items (ts ++ us) (e :: es)
  | single {ts : List Token} {es : List Expr} : Phrase .items ts es → Phrase .choice ts [group es]
  | further {ts us : List Token} {es fs : List Expr} : Phrase .items ts es →
      Phrase .choice us fs → Phrase .choice (ts ++ .mark Byte.slash :: us) (group es :: fs)

/-! ### Inputs -/

namespace Input

/-- An input that may be looked at. -/
def Checked (input : Input) : Prop := input.tokens = [] → input.fault = none

/-- The tokens that stand between two inputs. -/
structure Takes (input : Input) (ts : List Token) (out : Input) : Prop where
  tokens : input.tokens.map (·.1) = ts ++ out.tokens.map (·.1)
  fault : out.fault = input.fault
  checked : input.Checked → out.Checked

namespace Takes

theorem refl (input : Input) : Takes input [] input := ⟨rfl, rfl, id⟩

theorem trans {input mid out : Input} {ts us : List Token} (h : Takes input ts mid)
    (h' : Takes mid us out) : Takes input (ts ++ us) out :=
  ⟨by rw [h.tokens, h'.tokens, List.append_assoc], h'.fault.trans h.fault, h'.checked ∘ h.checked⟩

end Takes

theorem checked_eq_ok {input out : Input} (h : input.checked = .ok out) :
    out = input ∧ input.Checked := by
  obtain ⟨tokens, fault⟩ := input
  cases tokens with
  | cons t ts => exact ⟨(Except.ok.inj h).symm, fun h => absurd h (List.cons_ne_nil t ts)⟩
  | nil =>
    cases fault with
    | none => exact ⟨(Except.ok.inj h).symm, fun _ => rfl⟩
    | some f => cases h

theorem Checked.eq_ok {input : Input} (h : input.Checked) : input.checked = .ok input := by
  obtain ⟨tokens, fault⟩ := input
  cases tokens with
  | cons t ts => rfl
  | nil =>
    obtain rfl : fault = none := h rfl
    rfl

theorem advance_eq_ok {input out : Input} {t : Token} (ht : input.current? = some t)
    (h : input.advance = .ok out) : Takes input [t] out := by
  obtain ⟨rfl, hc⟩ := checked_eq_ok h
  obtain ⟨tokens, fault⟩ := input
  cases tokens with
  | nil => cases ht
  | cons u us =>
    obtain rfl : u.1 = t := Option.some.inj ht
    exact ⟨rfl, rfl, fun _ => hc⟩

theorem isAt_iff {input : Input} {b : UInt8} : input.isAt b ↔ input.current? = some (.mark b) :=
  beq_iff_eq

end Input

/-! ### What is read is a phrase -/

/-- The reader of a part of a pattern, as a relation. -/
def Reads (fuel : Nat) (input : Input) : Part → List Expr → Input → Prop
  | .atom, [e], out => readAtom fuel input = .ok (some e, out)
  | .repeated, [e], out => readRepeated fuel input = .ok (some e, out)
  | .item, [e], out => readItem fuel input = .ok (some e, out)
  | .items, es, out => readItems fuel input = .ok (es, out)
  | .choice, e :: es, out =>
    ∃ mid, readSequence fuel input = .ok (e, mid) ∧ readAlternatives fuel mid = .ok (es, out)
  | _, _, _ => False

theorem bind_eq_ok {α β : Type} {x : Except PatternError α} {f : α → Except PatternError β} {b : β}
    (h : x >>= f = .ok b) : ∃ a, x = .ok a ∧ f a = .ok b := by
  cases x with
  | error e => cases h
  | ok a => exact ⟨a, rfl, h⟩

theorem ok_bind {α β : Type} (a : α) (f : α → Except PatternError β) :
    (Except.ok a >>= f) = f a := rfl

theorem required_eq_ok {operator : UInt8} {r : Option Expr × Input} {e : Expr} {out : Input}
    (h : required operator r = .ok (e, out)) : r = (some e, out) := by
  obtain ⟨_ | e', input⟩ := r
  · cases h
  · cases h
    rfl

/-- All parts are read correctly with the given fuel. -/
def Correct (fuel : Nat) : Prop :=
  ∀ part input es out, Reads fuel input part es out →
    ∃ ts, input.Takes ts out ∧ Phrase part ts es

theorem Correct.readChoice {fuel : Nat} (ih : Correct fuel) {input out : Input} {e : Expr}
    (h : readChoice (fuel + 1) input = .ok (e, out)) :
    ∃ ts es, input.Takes ts out ∧ Phrase .choice ts es ∧ e = alternatives es := by
  obtain ⟨⟨first, mid⟩, hfirst, h⟩ := bind_eq_ok h
  obtain ⟨⟨others, last⟩, hothers, h⟩ := bind_eq_ok h
  obtain ⟨rfl, rfl⟩ := Prod.mk.inj (Except.ok.inj h)
  obtain ⟨ts, htakes, hp⟩ := ih .choice input (first :: others) last ⟨mid, hfirst, hothers⟩
  exact ⟨ts, _, htakes, hp, rfl⟩

/-- An atom of a single token. -/
theorem of_advance {input out : Input} {t : Token} {e e' : Expr} (ht : input.current? = some t)
    (hp : Phrase .atom [t] [e'])
    (h : (do return (some e', ← input.advance)) = Except.ok (some e, out)) :
    ∃ ts, input.Takes ts out ∧ Phrase .atom ts [e] := by
  obtain ⟨mid, hadvance, h⟩ := bind_eq_ok h
  obtain ⟨he, rfl⟩ := Prod.mk.inj (Except.ok.inj h)
  obtain rfl := Option.some.inj he
  exact ⟨[t], Input.advance_eq_ok ht hadvance, hp⟩

theorem Correct.readParens {fuel : Nat} (ih : ∀ m < fuel, Correct m) {input out : Input} {e : Expr}
    (ht : input.current? = some (.mark Byte.openParen))
    (h : (do
        let input ← input.advance
        let (e, input) ← Expr.readChoice fuel input
        match input.current? with
        | none => Except.error .missingBracket
        | some token =>
          if token == .mark Byte.closeParen then return (some e, ← input.advance)
          else .error (.expectedBracket token)) = Except.ok (some e, out)) :
    ∃ ts, input.Takes ts out ∧ Phrase .atom ts [e] := by
  obtain ⟨inner, hopen, h⟩ := bind_eq_ok h
  obtain ⟨⟨e', behind⟩, hchoice, h⟩ := bind_eq_ok h
  cases fuel with
  | zero => cases hchoice
  | succ fuel =>
    obtain ⟨ts, es, htakes, hp, rfl⟩ := (ih fuel (Nat.lt_succ_self fuel)).readChoice hchoice
    simp only at h
    split at h
    · cases h
    · next token hclose =>
      split at h
      · next hparen =>
        obtain rfl : token = .mark Byte.closeParen := by simpa using hparen
        obtain ⟨mid, hadvance, h⟩ := bind_eq_ok h
        obtain ⟨he, rfl⟩ := Prod.mk.inj (Except.ok.inj h)
        obtain rfl := Option.some.inj he
        have hall := ((Input.advance_eq_ok ht hopen).trans htakes).trans
          (Input.advance_eq_ok hclose hadvance)
        exact ⟨_, hall, .parens hp⟩
      · cases h

theorem Correct.readAtom {fuel : Nat} (ih : ∀ m < fuel, Correct m) {input out : Input} {e : Expr}
    (h : Expr.readAtom (fuel + 1) input = .ok (some e, out)) :
    ∃ ts, input.Takes ts out ∧ Phrase .atom ts [e] := by
  simp only [Expr.readAtom] at h
  split at h
  · next quote body ht => exact of_advance ht (.literal quote body) h
  · next body ht =>
    obtain ⟨e', hclass, h⟩ := bind_eq_ok h
    exact of_advance ht (.charClass hclass) h
  · next name ht =>
    split at h
    · next hname => exact of_advance ht (.word hname) h
    · cases h
  · next b ht =>
    split at h
    · next hdot =>
      obtain rfl : b = Byte.dot := by simpa using hdot
      exact of_advance ht .anyByte h
    split at h
    · next hparen =>
      obtain rfl : b = Byte.openParen := by simpa using hparen
      exact Correct.readParens ih ht h
    · cases h
  · cases h

theorem Correct.readRepeated {fuel : Nat} (ih : Correct fuel) {input out : Input} {e : Expr}
    (h : Expr.readRepeated (fuel + 1) input = .ok (some e, out)) :
    ∃ ts, input.Takes ts out ∧ Phrase .repeated ts [e] := by
  obtain ⟨⟨_ | e', mid⟩, hatom, h⟩ := bind_eq_ok h
  · cases h
  obtain ⟨ts, htakes, hp⟩ := ih .atom input [e'] mid hatom
  simp only at h
  split at h
  · next op hop =>
    obtain ⟨last, hadvance, h⟩ := bind_eq_ok h
    obtain ⟨he, rfl⟩ := Prod.mk.inj (Except.ok.inj h)
    obtain rfl := Option.some.inj he
    cases ht : mid.current? with
    | none => simp [ht, repetition?] at hop
    | some t =>
      exact ⟨ts ++ [t], htakes.trans (Input.advance_eq_ok ht hadvance), .repeated hp (ht ▸ hop)⟩
  · obtain ⟨he, rfl⟩ := Prod.mk.inj (Except.ok.inj h)
    obtain rfl := Option.some.inj he
    exact ⟨ts, htakes, .once hp⟩

theorem Correct.readItem {fuel : Nat} (ih : Correct fuel) {input out : Input} {e : Expr}
    (h : Expr.readItem (fuel + 1) input = .ok (some e, out)) :
    ∃ ts, input.Takes ts out ∧ Phrase .item ts [e] := by
  simp only [Expr.readItem] at h
  split at h
  · next mark op hop =>
    obtain ⟨inner, hadvance, h⟩ := bind_eq_ok h
    obtain ⟨r, hrepeated, h⟩ := bind_eq_ok h
    obtain ⟨⟨e', last⟩, hrequired, h⟩ := bind_eq_ok h
    obtain rfl := required_eq_ok hrequired
    obtain ⟨he, rfl⟩ := Prod.mk.inj (Except.ok.inj h)
    obtain rfl := Option.some.inj he
    obtain ⟨ts, htakes, hp⟩ := ih .repeated inner [e'] last hrepeated
    cases ht : input.current? with
    | none => simp [ht, lookahead?] at hop
    | some t =>
      exact ⟨t :: ts, (Input.advance_eq_ok ht hadvance).trans htakes, .lookahead (ht ▸ hop) hp⟩
  · split at h
    · next name ht =>
      obtain ⟨inner, hadvance, h⟩ := bind_eq_ok h
      obtain ⟨r, hitem, h⟩ := bind_eq_ok h
      obtain ⟨⟨e', last⟩, hrequired, h⟩ := bind_eq_ok h
      obtain rfl := required_eq_ok hrequired
      obtain ⟨he, rfl⟩ := Prod.mk.inj (Except.ok.inj h)
      obtain rfl := Option.some.inj he
      obtain ⟨ts, htakes, hp⟩ := ih .item inner [e'] last hitem
      exact ⟨_, (Input.advance_eq_ok ht hadvance).trans htakes, .labelled name hp⟩
    · obtain ⟨ts, htakes, hp⟩ := ih .repeated input [e] out h
      exact ⟨ts, htakes, .bare hp⟩

theorem Correct.readItems {fuel : Nat} (ih : Correct fuel) {input out : Input} {es : List Expr}
    (h : Expr.readItems (fuel + 1) input = .ok (es, out)) :
    ∃ ts, input.Takes ts out ∧ Phrase .items ts es := by
  simp only [Expr.readItems] at h
  split at h
  · obtain ⟨rfl, rfl⟩ := Prod.mk.inj (Except.ok.inj h)
    exact ⟨[], .refl input, .nothing⟩
  · split at h
    · obtain ⟨rfl, rfl⟩ := Prod.mk.inj (Except.ok.inj h)
      exact ⟨[], .refl input, .nothing⟩
    · obtain ⟨⟨_ | e, mid⟩, hitem, h⟩ := bind_eq_ok h
      · cases h
      obtain ⟨⟨es', last⟩, hitems, h⟩ := bind_eq_ok h
      obtain ⟨rfl, rfl⟩ := Prod.mk.inj (Except.ok.inj h)
      obtain ⟨ts, htakes, hp⟩ := ih .item input [e] mid hitem
      obtain ⟨us, htakes', hp'⟩ := ih .items mid es' last hitems
      exact ⟨ts ++ us, htakes.trans htakes', .more hp hp'⟩

theorem Correct.readSequence {fuel : Nat} (ih : Correct fuel) {input out : Input} {e : Expr}
    (h : Expr.readSequence (fuel + 1) input = .ok (e, out)) :
    ∃ ts es, input.Takes ts out ∧ Phrase .items ts es ∧ e = group es := by
  obtain ⟨⟨es, mid⟩, hitems, h⟩ := bind_eq_ok h
  obtain ⟨rfl, rfl⟩ := Prod.mk.inj (Except.ok.inj h)
  obtain ⟨ts, htakes, hp⟩ := ih .items input es mid hitems
  exact ⟨ts, es, htakes, hp, rfl⟩

/-- The alternatives of a choice, behind the first one. -/
theorem Correct.readAlternatives {fuel : Nat} (ih : Correct fuel) {input mid out : Input}
    {ts : List Token} {es fs : List Expr} (htakes : input.Takes ts mid)
    (hp : Phrase .items ts es) (h : Expr.readAlternatives (fuel + 1) mid = .ok (fs, out)) :
    ∃ us, input.Takes us out ∧ Phrase .choice us (group es :: fs) := by
  simp only [Expr.readAlternatives] at h
  split at h
  · next hslash =>
    obtain ⟨behind, hadvance, h⟩ := bind_eq_ok h
    obtain ⟨⟨e, inner⟩, hsequence, h⟩ := bind_eq_ok h
    obtain ⟨⟨es', last⟩, hothers, h⟩ := bind_eq_ok h
    obtain ⟨rfl, rfl⟩ := Prod.mk.inj (Except.ok.inj h)
    obtain ⟨us, htakes', hp'⟩ := ih .choice behind (e :: es') last ⟨inner, hsequence, hothers⟩
    have hslash' := Input.advance_eq_ok (Input.isAt_iff.mp hslash) hadvance
    exact ⟨_, htakes.trans (hslash'.trans htakes'), .further hp hp'⟩
  · obtain ⟨rfl, rfl⟩ := Prod.mk.inj (Except.ok.inj h)
    exact ⟨ts, htakes, .single hp⟩

theorem not_reads_zero {input out : Input} {part : Part} {es : List Expr} :
    ¬ Reads 0 input part es out := by
  intro h
  cases part with
  | items => cases h
  | choice =>
    cases es with
    | nil => exact h
    | cons e es =>
      obtain ⟨mid, hfirst, -⟩ := h
      cases hfirst
  | _ =>
    cases es with
    | nil => exact h
    | cons e es =>
      cases es with
      | nil => cases h
      | cons _ _ => exact h

/-- The one expression of an atom, of an atom with its repetition, or of an item. -/
theorem Reads.eq_singleton {fuel : Nat} {input out : Input} {part : Part} {es : List Expr}
    (h : Reads fuel input part es out) (hpart : part ≠ .items) (hpart' : part ≠ .choice) :
    ∃ e, es = [e] := by
  cases part with
  | items => exact absurd rfl hpart
  | choice => exact absurd rfl hpart'
  | _ =>
    cases es with
    | nil => exact h.elim
    | cons e es =>
      cases es with
      | nil => exact ⟨e, rfl⟩
      | cons _ _ => exact h.elim

/-- Whatever is read is a phrase. -/
theorem correct (fuel : Nat) : Correct fuel := by
  induction fuel using Nat.strongRecOn with
  | ind fuel ih =>
    intro part input es out h
    cases fuel with
    | zero => exact absurd h not_reads_zero
    | succ fuel =>
      have ih' : Correct fuel := ih fuel (Nat.lt_succ_self fuel)
      cases part with
      | atom =>
        obtain ⟨e, rfl⟩ := h.eq_singleton (by simp) (by simp)
        exact Correct.readAtom (fun m hm => ih m (Nat.lt_succ_of_lt hm)) h
      | repeated =>
        obtain ⟨e, rfl⟩ := h.eq_singleton (by simp) (by simp)
        exact ih'.readRepeated h
      | item =>
        obtain ⟨e, rfl⟩ := h.eq_singleton (by simp) (by simp)
        exact ih'.readItem h
      | items => exact ih'.readItems h
      | choice =>
        cases es with
        | nil => exact h.elim
        | cons e es =>
          obtain ⟨mid, hfirst, hothers⟩ := h
          obtain ⟨ts, fs, htakes, hp, rfl⟩ := ih'.readSequence hfirst
          exact ih'.readAlternatives htakes hp hothers

/-- What a whole input is read as is what its tokens stand for. -/
theorem phrase_of_readInput {input : Input} {e : Expr} (h : readInput input = .ok e) :
    input.fault = none
      ∧ ∃ es, Phrase .choice (input.tokens.map (·.1)) es ∧ e = alternatives es := by
  obtain ⟨input', hchecked, hread⟩ := bind_eq_ok h
  obtain ⟨rfl, hc⟩ := Input.checked_eq_ok hchecked
  obtain ⟨⟨e', rest⟩, hchoice, hread⟩ := bind_eq_ok hread
  obtain ⟨ts, es, htakes, hp, rfl⟩ := (correct _).readChoice hchoice
  simp only at hread
  split at hread
  · next hrest =>
    obtain rfl : alternatives es = e := Except.ok.inj hread
    have hts := htakes.tokens
    rw [hrest, List.map_nil, List.append_nil] at hts
    exact ⟨htakes.fault ▸ htakes.checked hc hrest, es, hts ▸ hp, rfl⟩
  · cases hread

/-! ### Phrases are read -/

/-- A token that an item can begin with. -/
structure Begins (t : Token) : Prop where
  repetition : repetition? (some t) = none
  slash : t ≠ .mark Byte.slash
  closeParen : t ≠ .mark Byte.closeParen

/-- A token that an atom can begin with. -/
structure Opens (t : Token) : Prop extends Begins t where
  lookahead : lookahead? (some t) = none
  label : ∀ name, t ≠ .label name

theorem opens_quoted (quote : UInt8) (body : Bytes) : Opens (.quoted quote body) :=
  ⟨⟨by simp [repetition?], by simp, by simp⟩, by simp [lookahead?], by simp⟩

theorem opens_bracket (body : Bytes) : Opens (.bracket body) :=
  ⟨⟨by simp [repetition?], by simp, by simp⟩, by simp [lookahead?], by simp⟩

theorem opens_word (name : Bytes) : Opens (.word name) :=
  ⟨⟨by simp [repetition?], by simp, by simp⟩, by simp [lookahead?], by simp⟩

theorem opens_dot : Opens (.mark Byte.dot) :=
  ⟨⟨by decide, by decide, by decide⟩, by decide, by simp⟩

theorem opens_openParen : Opens (.mark Byte.openParen) :=
  ⟨⟨by decide, by decide, by decide⟩, by decide, by simp⟩

theorem begins_label (name : Bytes) : Begins (.label name) :=
  ⟨by simp [repetition?], by simp, by simp⟩

theorem begins_of_lookahead {t : Token} {r : UInt8 × Operator} (h : lookahead? (some t) = some r) :
    Begins t := by
  have ht : t = .mark Byte.bang ∨ t = .mark Byte.ampersand := by
    unfold lookahead? at h
    split at h
    · next hb => exact .inl (by simpa using hb)
    split at h
    · next ha => exact .inr (by simpa using ha)
    · cases h
  rcases ht with rfl | rfl <;> exact ⟨by decide, by decide, by decide⟩

namespace Part

/-- How the tokens of a part begin. -/
def Starts : Part → List Token → Prop
  | atom, ts | repeated, ts => ∃ t us, ts = t :: us ∧ Opens t
  | item, ts => ∃ t us, ts = t :: us ∧ Begins t
  | items, ts => ∀ t ∈ ts.head?, Begins t
  | choice, _ => True

/-- What may stand behind a part, so that it ends there. -/
def MayEnd : Part → List Token → Prop
  | atom, _ => True
  | repeated, rest | item, rest => repetition? rest.head? = none
  | items, rest => ∀ t ∈ rest.head?, t = .mark Byte.slash ∨ t = .mark Byte.closeParen
  | choice, rest => ∀ t ∈ rest.head?, t = .mark Byte.closeParen

/-- The calls around the first token of a part, counted from those of an atom. -/
def slack : Part → Nat
  | atom => 0
  | repeated => 1
  | item => 2
  | items => 5
  | choice => 6

theorem MayEnd.repetition {rest : List Token} (h : items.MayEnd rest) :
    repetition? rest.head? = none := by
  cases rest with
  | nil => rfl
  | cons t rest =>
    rw [List.head?_cons]
    rcases h t rfl with rfl | rfl <;> decide

end Part

theorem Phrase.starts {part : Part} {ts : List Token} {es : List Expr} (h : Phrase part ts es) :
    part.Starts ts := by
  induction h with
  | literal quote body => exact ⟨_, _, rfl, opens_quoted quote body⟩
  | charClass => exact ⟨_, _, rfl, opens_bracket _⟩
  | word => exact ⟨_, _, rfl, opens_word _⟩
  | anyByte => exact ⟨_, _, rfl, opens_dot⟩
  | parens => exact ⟨_, _, rfl, opens_openParen⟩
  | once _ ih => exact ih
  | repeated _ _ ih =>
    obtain ⟨t, us, rfl, ht⟩ := ih
    exact ⟨t, _, rfl, ht⟩
  | bare _ ih =>
    obtain ⟨t, us, rfl, ht⟩ := ih
    exact ⟨t, us, rfl, ht.toBegins⟩
  | lookahead hop => exact ⟨_, _, rfl, begins_of_lookahead hop⟩
  | labelled name => exact ⟨_, _, rfl, begins_label name⟩
  | nothing => exact fun t ht => absurd ht (by simp)
  | more _ _ ih =>
    obtain ⟨t, us, rfl, ht⟩ := ih
    exact fun u hu => Option.some.inj hu ▸ ht
  | single => trivial
  | further => trivial

namespace Input

/-- An input with exactly the given tokens and no fault. -/
structure Shows (input : Input) (ts : List Token) : Prop where
  tokens : input.tokens.map (·.1) = ts
  fault : input.fault = none

namespace Shows

theorem checked {input : Input} {ts : List Token} (h : input.Shows ts) : input.Checked :=
  fun _ => h.fault

theorem current? {input : Input} {ts : List Token} (h : input.Shows ts) :
    input.current? = ts.head? := by
  rw [Input.current?, ← h.tokens, List.head?_map]

theorem advance {input : Input} {t : Token} {ts : List Token} (h : input.Shows (t :: ts)) :
    ∃ out, input.advance = .ok out ∧ out.Shows ts := by
  obtain ⟨tokens, fault⟩ := input
  cases tokens with
  | nil => exact absurd h.tokens (by simp)
  | cons u us =>
    have hout : Shows ⟨us, fault⟩ ts := ⟨(List.cons.inj h.tokens).2, h.fault⟩
    exact ⟨_, hout.checked.eq_ok, hout⟩

end Shows

end Input

open Input (Shows)

variable {input : Input} {rest ts us : List Token}

/-- What a phrase of the given part and tokens is read as, wherever it ends. -/
def Found (part : Part) (ts : List Token) (es : List Expr) : Prop :=
  ∀ fuel input rest, Shows input (ts ++ rest) → part.MayEnd rest →
    8 * ts.length + part.slack ≤ fuel + 4 →
    ∃ out, Reads fuel input part es out ∧ out.Shows rest

/-- An atom of a single token is read by taking it. -/
theorem found_token {t : Token} {e : Expr}
    (h : ∀ fuel input, input.current? = some t →
      readAtom (fuel + 1) input = do return (some e, ← input.advance)) : Found .atom [t] [e] := by
  intro fuel input rest hin _ hfuel
  obtain ⟨fuel, rfl⟩ : ∃ k, fuel = k + 1 := ⟨fuel - 1, by simp at hfuel; omega⟩
  obtain ⟨out, hadvance, hout⟩ := hin.advance
  refine ⟨out, ?_, hout⟩
  rw [Reads, h fuel input hin.current?, hadvance]
  rfl

theorem Found.readChoice {es : List Expr} (h : Found .choice ts es) (fuel : Nat)
    (hin : input.Shows (ts ++ rest)) (hrest : Part.choice.MayEnd rest)
    (hfuel : 8 * ts.length + 6 ≤ fuel + 4) :
    ∃ out, Expr.readChoice (fuel + 1) input = .ok (alternatives es, out) ∧ out.Shows rest := by
  obtain ⟨out, hreads, hout⟩ := h fuel input rest hin hrest hfuel
  cases es with
  | nil => exact hreads.elim
  | cons e es =>
    obtain ⟨mid, hfirst, hothers⟩ := hreads
    refine ⟨out, ?_, hout⟩
    rw [Expr.readChoice, hfirst, ok_bind]
    simp only
    rw [hothers]
    rfl

theorem Found.parens {es : List Expr} (h : Found .choice ts es) :
    Found .atom (.mark Byte.openParen :: ts ++ [.mark Byte.closeParen]) [alternatives es] := by
  intro fuel input rest hin _ hfuel
  obtain ⟨fuel, rfl⟩ : ∃ k, fuel = k + 2 :=
    ⟨fuel - 2, by simp only [List.length_append, List.length_cons] at hfuel; omega⟩
  rw [List.append_assoc, List.cons_append] at hin
  obtain ⟨inner, hopen, hinner⟩ := hin.advance
  obtain ⟨mid, hchoice, hmid⟩ := h.readChoice fuel hinner
    (fun t ht => (Option.some.inj ht).symm) (by
      simp only [List.length_append, List.length_cons, List.length_nil, Part.slack] at hfuel
      omega)
  obtain ⟨out, hclose, hout⟩ := hmid.advance
  refine ⟨out, ?_, hout⟩
  have hat : input.current? = some (.mark Byte.openParen) := hin.current?
  have hend : mid.current? = some (.mark Byte.closeParen) := hmid.current?
  rw [Reads, readAtom, hat]
  simp only
  rw [if_neg (by decide), if_pos (by decide), hopen, ok_bind, hchoice, ok_bind]
  simp only [hend]
  rw [if_pos (by decide), hclose]
  rfl

theorem Found.once {es : List Expr} (h : Found .atom ts es) (hpos : 0 < ts.length) :
    Found .repeated ts es := by
  intro fuel input rest hin hrest hfuel
  obtain ⟨fuel, rfl⟩ : ∃ k, fuel = k + 1 := ⟨fuel - 1, by omega⟩
  obtain ⟨out, hreads, hout⟩ := h fuel input rest hin trivial (by simp [Part.slack] at *; omega)
  obtain ⟨e, rfl⟩ := hreads.eq_singleton (by simp) (by simp)
  refine ⟨out, ?_, hout⟩
  rw [Reads, readRepeated, show readAtom fuel input = _ from hreads, ok_bind]
  simp only [hout.current?, show repetition? rest.head? = none from hrest]
  rfl

theorem Found.repeated {t : Token} {op : Operator} {e : Expr} (h : Found .atom ts [e])
    (hop : repetition? (some t) = some op) : Found .repeated (ts ++ [t]) [.apply none op e] := by
  intro fuel input rest hin _ hfuel
  rw [List.length_append, List.length_singleton, Part.slack] at hfuel
  obtain ⟨fuel, rfl⟩ : ∃ k, fuel = k + 1 := ⟨fuel - 1, by omega⟩
  rw [List.append_assoc] at hin
  obtain ⟨mid, hreads, hmid⟩ := h fuel input ([t] ++ rest) hin trivial
    (by rw [Part.slack]; omega)
  obtain ⟨out, hadvance, hout⟩ := hmid.advance
  refine ⟨out, ?_, hout⟩
  rw [Reads, readRepeated, show readAtom fuel input = _ from hreads, ok_bind]
  simp only [hmid.current?, List.singleton_append, List.head?_cons, hop, hadvance]
  rfl

theorem Found.bare {es : List Expr} (h : Found .repeated ts es)
    (hstarts : Part.repeated.Starts ts) : Found .item ts es := by
  intro fuel input rest hin hrest hfuel
  obtain ⟨t, us, rfl, ht⟩ := hstarts
  rw [List.length_cons, Part.slack] at hfuel
  obtain ⟨fuel, rfl⟩ : ∃ k, fuel = k + 1 := ⟨fuel - 1, by omega⟩
  obtain ⟨out, hreads, hout⟩ := h fuel input rest hin hrest
    (by rw [List.length_cons, Part.slack]; omega)
  obtain ⟨e, rfl⟩ := hreads.eq_singleton (by simp) (by simp)
  refine ⟨out, ?_, hout⟩
  have hat : input.current? = some t := hin.current?
  rw [Reads, readItem, hat, ht.lookahead]
  simp only
  split
  · next name hname => exact absurd (Option.some.inj hname) (ht.label name)
  · exact hreads

theorem Found.lookahead {t : Token} {mark : UInt8} {op : Operator} {e : Expr}
    (hop : lookahead? (some t) = some (mark, op)) (h : Found .repeated ts [e]) :
    Found .item (t :: ts) [.apply none op e] := by
  intro fuel input rest hin hrest hfuel
  rw [List.length_cons, Part.slack] at hfuel
  obtain ⟨fuel, rfl⟩ : ∃ k, fuel = k + 1 := ⟨fuel - 1, by omega⟩
  obtain ⟨inner, hadvance, hinner⟩ := hin.advance
  obtain ⟨out, hreads, hout⟩ := h fuel inner rest hinner hrest (by rw [Part.slack]; omega)
  refine ⟨out, ?_, hout⟩
  have hat : input.current? = some t := hin.current?
  rw [Reads, readItem, hat, hop]
  simp only
  rw [hadvance, ok_bind, show readRepeated fuel inner = _ from hreads]
  rfl

theorem Found.labelled {e : Expr} (name : Bytes) (h : Found .item ts [e]) :
    Found .item (.label name :: ts) [e.withLabel name] := by
  intro fuel input rest hin hrest hfuel
  rw [List.length_cons, Part.slack] at hfuel
  obtain ⟨fuel, rfl⟩ : ∃ k, fuel = k + 1 := ⟨fuel - 1, by omega⟩
  obtain ⟨inner, hadvance, hinner⟩ := hin.advance
  obtain ⟨out, hreads, hout⟩ := h fuel inner rest hinner hrest (by rw [Part.slack]; omega)
  refine ⟨out, ?_, hout⟩
  have hat : input.current? = some (.label name) := hin.current?
  have hno : lookahead? (some (.label name)) = none := by simp [lookahead?]
  rw [Reads, readItem, hat, hno]
  simp only
  rw [hadvance, ok_bind, show readItem fuel inner = _ from hreads]
  rfl

theorem found_nothing : Found .items [] [] := by
  intro fuel input rest hin hrest hfuel
  obtain ⟨fuel, rfl⟩ : ∃ k, fuel = k + 1 := ⟨fuel - 1, by simp [Part.slack] at hfuel; omega⟩
  refine ⟨input, ?_, hin⟩
  rw [Reads, readItems, hin.current?, List.nil_append]
  cases rest with
  | nil => rfl
  | cons t rest => rcases hrest t rfl with rfl | rfl <;> rfl

theorem Found.more {e : Expr} {es : List Expr} (h : Found .item ts [e]) (h' : Found .items us es)
    (hts : Part.item.Starts ts) (hus : Part.items.Starts us) :
    Found .items (ts ++ us) (e :: es) := by
  intro fuel input rest hin hrest hfuel
  obtain ⟨t, ts, rfl, ht⟩ := hts
  rw [List.length_append, List.length_cons, Part.slack] at hfuel
  obtain ⟨fuel, rfl⟩ : ∃ k, fuel = k + 1 := ⟨fuel - 1, by omega⟩
  rw [List.append_assoc] at hin
  have hend : repetition? (us ++ rest).head? = none := by
    cases us with
    | nil => exact hrest.repetition
    | cons u us => exact (hus u rfl).repetition
  obtain ⟨mid, hitem, hmid⟩ := h fuel input (us ++ rest) hin hend
    (by rw [List.length_cons, Part.slack]; omega)
  obtain ⟨out, hitems, hout⟩ := h' fuel mid rest hmid hrest (by rw [Part.slack]; omega)
  refine ⟨out, ?_, hout⟩
  have hat : input.current? = some t := hin.current?
  rw [Reads, readItems, hat]
  simp only
  rw [if_neg (by simp [ht.slash, ht.closeParen]), show readItem fuel input = _ from hitem, ok_bind]
  simp only
  rw [show readItems fuel mid = _ from hitems]
  rfl

theorem Found.readSequence {es : List Expr} (h : Found .items ts es) (fuel : Nat)
    (hin : input.Shows (ts ++ rest)) (hrest : Part.items.MayEnd rest)
    (hfuel : 8 * ts.length + 5 ≤ fuel + 4) :
    ∃ out, Expr.readSequence (fuel + 1) input = .ok (group es, out) ∧ out.Shows rest := by
  obtain ⟨out, hreads, hout⟩ := h fuel input rest hin hrest hfuel
  exact ⟨out, by rw [Expr.readSequence, show readItems fuel input = _ from hreads]; rfl, hout⟩

theorem Found.single {es : List Expr} (h : Found .items ts es) : Found .choice ts [group es] := by
  intro fuel input rest hin hrest hfuel
  rw [Part.slack] at hfuel
  obtain ⟨fuel, rfl⟩ : ∃ k, fuel = k + 1 := ⟨fuel - 1, by omega⟩
  obtain ⟨out, hsequence, hout⟩ := h.readSequence fuel hin (fun t ht => .inr (hrest t ht))
    (by omega)
  refine ⟨out, ⟨out, hsequence, ?_⟩, hout⟩
  have hslash : out.isAt Byte.slash = false := by
    rw [Input.isAt, hout.current?]
    cases rest with
    | nil => rfl
    | cons t rest => rw [hrest t rfl]; rfl
  rw [readAlternatives, hslash]
  rfl

theorem Found.further {es fs : List Expr} (h : Found .items ts es) (h' : Found .choice us fs) :
    Found .choice (ts ++ .mark Byte.slash :: us) (group es :: fs) := by
  intro fuel input rest hin hrest hfuel
  rw [List.length_append, List.length_cons, Part.slack] at hfuel
  obtain ⟨fuel, rfl⟩ : ∃ k, fuel = k + 1 := ⟨fuel - 1, by omega⟩
  rw [List.append_assoc, List.cons_append] at hin
  obtain ⟨mid, hsequence, hmid⟩ := h.readSequence fuel hin
    (fun t ht => .inl (Option.some.inj ht).symm) (by omega)
  obtain ⟨behind, hadvance, hbehind⟩ := hmid.advance
  obtain ⟨out, hchoice, hout⟩ := h' fuel behind rest hbehind hrest (by rw [Part.slack]; omega)
  cases fs with
  | nil => exact hchoice.elim
  | cons f fs =>
    obtain ⟨inner, hfirst, hothers⟩ := hchoice
    refine ⟨out, ⟨mid, hsequence, ?_⟩, hout⟩
    have hslash : mid.isAt Byte.slash = true := Input.isAt_iff.mpr hmid.current?
    rw [readAlternatives, if_pos hslash, hadvance, ok_bind, hfirst, ok_bind]
    simp only
    rw [hothers]
    rfl

/-- Every phrase is read, wherever it ends. -/
theorem Phrase.found {part : Part} {es : List Expr} (h : Phrase part ts es) : Found part ts es := by
  induction h with
  | literal => exact found_token fun fuel input hat => by rw [readAtom, hat]
  | charClass hclass =>
    exact found_token fun fuel input hat => by rw [readAtom, hat]; simp only; rw [hclass, ok_bind]
  | word hname =>
    exact found_token fun fuel input hat => by rw [readAtom, hat]; simp only; rw [if_pos hname]
  | anyByte => exact found_token fun fuel input hat => by rw [readAtom, hat]; rfl
  | parens _ ih => exact ih.parens
  | once hp ih =>
    obtain ⟨t, us, rfl, -⟩ := hp.starts
    exact ih.once (Nat.succ_pos _)
  | repeated _ hop ih => exact ih.repeated hop
  | bare hp ih => exact ih.bare hp.starts
  | lookahead hop _ ih => exact ih.lookahead hop
  | labelled name _ ih => exact ih.labelled name
  | nothing => exact found_nothing
  | more hp hp' ih ih' => exact ih.more ih' hp.starts hp'.starts
  | single _ ih => exact ih.single
  | further _ _ ih ih' => exact ih.further ih'

/-- An input without a fault is read as what its tokens stand for. -/
theorem readInput_of_phrase {es : List Expr} (h : Phrase .choice ts es) (hin : input.Shows ts) :
    readInput input = .ok (alternatives es) := by
  rw [← List.append_nil ts] at hin
  have hlength : input.tokens.length = ts.length := by
    rw [← List.append_nil ts, ← hin.tokens, List.length_map]
  obtain ⟨out, hread, hout⟩ := h.found.readChoice (8 * ts.length + 7) hin
    (fun t ht => absurd ht (by simp)) (by omega)
  have hdone : out.tokens = [] := List.map_eq_nil_iff.mp hout.tokens
  rw [readInput, hin.checked.eq_ok, ok_bind, hlength, Nat.mul_add, hread, ok_bind]
  simp only [hdone]
  rfl

end Expr

end Packrat
