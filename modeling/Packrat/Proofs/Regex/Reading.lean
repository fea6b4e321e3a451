import Packrat.Comment
import Mathlib.Tactic.Common

/-!
Reading regular expressions that begin with plain text.

A byte that is written as it is, or behind a backslash if it has a meaning of its own, is cut off as a
literal token (`Regex.Token.next?_plain`, `Regex.Token.next?_escaped`), and literal tokens are read as one
byte after the other, unless a quantifier follows (`Regex.alternative_literal`).  The ways to write any
number of bytes are read as a repeated class (`Regex.alternative_classRun`).

Lexer and reader take fuel, so the lemmas go forward: they are about texts that are read, and say what
they are read as.
-/

namespace Packrat

namespace Comment

/-- The bytes that have a meaning of their own. -/
theorem isMeta_iff {b : UInt8} : isMeta b ↔
    b ∈ [Byte.dot, Byte.star, Byte.plus, Byte.question, Byte.openParen, Byte.closeParen, Byte.openBracket,
      Byte.closeBracket, Byte.openBrace, Byte.closeBrace, Byte.bar, Byte.caret, Byte.dollar,
      Byte.backslash] := by
  have hlist : Bytes.ascii ".*+?()[]\x7b\x7d|^$\\" = [Byte.dot, Byte.star, Byte.plus, Byte.question,
      Byte.openParen, Byte.closeParen, Byte.openBracket, Byte.closeBracket, Byte.openBrace,
      Byte.closeBrace, Byte.bar, Byte.caret, Byte.dollar, Byte.backslash] := by decide
  rw [isMeta, hlist, List.contains_iff_mem]

end Comment

namespace Regex

/-! ### Tokens -/

namespace Token

variable {mode mode' : Mode} {b : UInt8} {bs rest text written : Bytes} {t : Token} {ts : List Token}
  {fuel : Nat}

theorem lexFrom_of_next? (hnext : next? mode (b :: bs) = some (t, mode', rest))
    (h : lexFrom fuel mode (b :: bs) = some ts) :
    ∃ fuel' ts', lexFrom fuel' mode' rest = some ts' ∧ ts = t :: ts' := by
  cases fuel with
  | zero => cases h
  | succ fuel =>
    rw [lexFrom, hnext] at h
    change (lexFrom fuel mode' rest >>= fun tokens => pure (t :: tokens)) = some ts at h
    obtain ⟨ts', hts', h⟩ := Option.bind_eq_some_iff.mp h
    exact ⟨fuel, ts', hts', (Option.some.inj h).symm⟩

theorem lexFrom_nil (h : lexFrom fuel mode [] = some ts) : ts = [] := by
  cases fuel <;> exact (Option.some.inj h).symm

/-- A text begins with tokens. -/
inductive Lexes : Mode → Bytes → List Token → Mode → Bytes → Prop
  | nil {mode : Mode} {bs : Bytes} : Lexes mode bs [] mode bs
  | cons {mode mode' mode'' : Mode} {b : UInt8} {bs rest rest' : Bytes} {t : Token} {ts : List Token} :
    next? mode (b :: bs) = some (t, mode', rest) → Lexes mode' rest ts mode'' rest' →
      Lexes mode (b :: bs) (t :: ts) mode'' rest'

theorem Lexes.lexFrom (h : Lexes mode bs ts mode' rest) {us : List Token}
    (hus : lexFrom fuel mode bs = some us) :
    ∃ fuel' vs, Token.lexFrom fuel' mode' rest = some vs ∧ us = ts ++ vs := by
  induction h generalizing fuel us with
  | nil => exact ⟨fuel, us, hus, rfl⟩
  | cons hnext _ ih =>
    obtain ⟨fuel', us', hus', rfl⟩ := lexFrom_of_next? hnext hus
    obtain ⟨fuel'', vs, hvs, rfl⟩ := ih hus'
    exact ⟨fuel'', vs, hvs, rfl⟩

theorem next?_plain (hb : ¬ Comment.isMeta b) (bs : Bytes) :
    next? .outside (b :: bs) = some (.literal b, .outside, bs) := by
  rw [Comment.isMeta_iff] at hb
  simp only [List.mem_cons, List.not_mem_nil, or_false, not_or] at hb
  rw [next?]
  unfold outside?
  split <;> simp_all

theorem next?_escaped (hb : Comment.isMeta b) (bs : Bytes) :
    next? .outside (Byte.backslash :: b :: bs) = some (.literal b, .outside, bs) := by
  rw [Comment.isMeta_iff] at hb
  simp only [List.mem_cons, List.not_mem_nil, or_false] at hb
  rcases hb with rfl | rfl | rfl | rfl | rfl | rfl | rfl | rfl | rfl | rfl | rfl | rfl | rfl | rfl <;> rfl

/-- The tokens that say how often something occurs. -/
def isQuantifier : Token → Bool
  | .star | .plus | .question | .openBrace => true
  | _ => false

theorem isQuantifier_escape? (mode : Mode) (bs : Bytes) : ∀ r ∈ escape? mode bs, ¬ isQuantifier r.1 := by
  unfold escape?
  repeat' split
  all_goals simp [isQuantifier]
  -- the escapes with two and with four digits are left
  all_goals
    rintro _ _ n rest - rfl -
    rfl

/-- Only a byte that begins a quantifier is cut off as one. -/
theorem isQuantifier_next? (hb : b ≠ Byte.star ∧ b ≠ Byte.question ∧ b ≠ Byte.openBrace ∧ b ≠ Byte.plus)
    (bs : Bytes) : ∀ r ∈ next? .outside (b :: bs), ¬ isQuantifier r.1 := by
  rw [next?]
  unfold outside?
  split
  · exact fun _ h => by cases h
  · intro r hr
    obtain ⟨s, hs, rfl⟩ := Option.map_eq_some_iff.mp hr
    exact isQuantifier_escape? .outside _ s hs
  all_goals simp_all [isQuantifier]

/-- No quantifier begins a text that does not begin with the byte of one. -/
theorem quantity?_of_lexFrom
    (hhead : ∀ b ∈ bs.head?, b ≠ Byte.star ∧ b ≠ Byte.question ∧ b ≠ Byte.openBrace ∧ b ≠ Byte.plus)
    (h : lexFrom fuel .outside bs = some ts) : quantity? ts = some none := by
  cases bs with
  | nil =>
    rw [lexFrom_nil h]
    rfl
  | cons b bs =>
    cases hnext : next? .outside (b :: bs) with
    | none =>
      cases fuel with
      | zero => cases h
      | succ fuel =>
        rw [lexFrom, hnext] at h
        cases h
    | some r =>
      obtain ⟨t, mode, rest⟩ := r
      obtain ⟨-, ts', -, rfl⟩ := lexFrom_of_next? hnext h
      have hnot := isQuantifier_next? (hhead b rfl) bs _ hnext
      cases t with
      | star | plus | question | openBrace => exact absurd rfl hnot
      | _ => rfl

/-- Plain text is cut into its bytes. -/
theorem lexes_plain (h : Comment.plainText? written = some text) :
    Lexes .outside written (text.map .literal) .outside [] := by
  induction written using Comment.plainText?.induct generalizing text with
  | case1 =>
    obtain rfl : [] = text := Option.some.inj h
    exact .nil
  | case2 m rest hm ih =>
    rw [Comment.plainText?, if_pos hm] at h
    obtain ⟨text, htext, rfl⟩ := Option.map_eq_some_iff.mp h
    exact .cons (next?_escaped hm rest) (ih htext)
  | case3 m rest hm =>
    rw [Comment.plainText?, if_neg hm] at h
    cases h
  | case4 b rest hnot hb =>
    rw [Comment.plainText?, if_pos hb] at h
    · cases h
    · exact hnot
  | case5 b rest hnot hb ih =>
    rw [Comment.plainText?, if_neg hb] at h
    · obtain ⟨text, htext, rfl⟩ := Option.map_eq_some_iff.mp h
      exact .cons (next?_plain hb rest) (ih htext)
    · exact hnot

theorem lexFrom_plain (hplain : Comment.plainText? written = some text)
    (h : lexFrom fuel .outside written = some ts) : ts = text.map .literal := by
  obtain ⟨fuel', vs, hvs, rfl⟩ := (lexes_plain hplain).lexFrom h
  rw [lexFrom_nil hvs, List.append_nil]

end Token

/-! ### Terms -/

/-- The bytes of a text one after the other, and then an expression. -/
def literals (text : Bytes) (r : Regex) : Regex :=
  text.foldr (fun b r => .seq (.byte (.exactly b)) r) r

theorem literals_nil (r : Regex) : literals [] r = r := rfl

theorem literals_cons (b : UInt8) (text : Bytes) (r : Regex) :
    literals (b :: text) r = .seq (.byte (.exactly b)) (literals text r) := rfl

/-- A byte, with any number of quantifiers around it. -/
inductive Quantified (b : UInt8) : Regex → Prop
  | byte : Quantified b (.byte (.exactly b))
  | repeated {r : Regex} {q : Quantity} {short : Bool} : Quantified b r → Quantified b (.repeated r q short)

variable {g : GroupCount} {t : Token} {ts us : List Token} {r a f : Regex} {b : UInt8} {x : Step}
  {fuel : Nat}

theorem quantified_of_none (h : quantity? ts = some none) (fuel : Nat) (r : Regex) :
    quantified (fuel + 1) r ts = some (r, ts) := by
  rw [quantified, h]

theorem quantified_star (h : quantity? ts = some none) (fuel : Nat) (r : Regex) :
    quantified (fuel + 2) r (.star :: ts) = some (.repeated r .star false, ts) := by
  rw [quantified, quantity?]
  split
  · next heq => cases heq
  · next heq => cases heq
  · next heq =>
    -- a question mark would be a quantifier itself
    cases heq
    cases h
  · next heq =>
    cases heq
    exact quantified_of_none h fuel _

theorem quantified_star_short (h : quantity? ts = some none) (fuel : Nat) (r : Regex) :
    quantified (fuel + 2) r (.star :: .question :: ts) = some (.repeated r .star true, ts) := by
  rw [quantified, quantity?]
  exact quantified_of_none h fuel _

/-- Quantifiers are put around what they follow. -/
theorem Quantified.of_quantified (ha : Quantified b a) (h : quantified fuel a ts = some (f, us)) :
    Quantified b f := by
  induction fuel generalizing a ts with
  | zero => cases h
  | succ fuel ih =>
    rw [quantified] at h
    split at h
    · cases h
    · obtain rfl := (Prod.mk.inj (Option.some.inj h)).1
      exact ha
    · exact ih ha.repeated h
    · exact ih ha.repeated h

/-- A sequence that begins with an atom: the quantifiers behind the atom are applied to it, and the sequence
goes on behind them. -/
theorem alternative_atom (ht : t = .dot ∨ (∃ b, t = .literal b) ∨ ∃ negated, t = .openBracket negated)
    (hatom : ∀ fuel, atom (fuel + 1) g (t :: ts) = some (some (a, g, us)))
    (h : alternative fuel g (t :: ts) = some x) :
    ∃ fuel' f vs s, quantified (us.length + 1) a us = some (f, vs)
      ∧ alternative fuel' g vs = some (s, x.2) ∧ x.1 = .seq f s := by
  have hterm (fuel : Nat) : term (fuel + 2) g (t :: ts)
      = (quantified (us.length + 1) a us).bind fun q => some (some (q.1, g, q.2)) := by
    rcases ht with rfl | ⟨b, rfl⟩ | ⟨negated, rfl⟩ <;> simp only [term, hatom] <;> rfl
  -- a sequence, its first term and the atom of that take fuel each
  rcases fuel with _ | _ | _ | fuel
  · cases h
  · cases h
  · rcases ht with rfl | ⟨b, rfl⟩ | ⟨negated, rfl⟩ <;> cases h
  · rw [alternative, hterm] at h
    cases hq : quantified (us.length + 1) a us with
    | none =>
      simp only [hq, Option.bind_eq_bind, Option.bind_none] at h
      cases h
    | some fvs =>
      obtain ⟨f, vs⟩ := fvs
      simp only [hq, Option.bind_eq_bind, Option.bind_some, Option.pure_def] at h
      obtain ⟨⟨s, rest⟩, hs, h⟩ := Option.bind_eq_some_iff.mp h
      exact ⟨_, f, vs, s, rfl, by rw [hs, ← Option.some.inj h], by rw [← Option.some.inj h]⟩

theorem alternative_nil (h : alternative fuel g [] = some x) : x = (.empty, g, []) := by
  rcases fuel with _ | _ | _ | fuel
  · cases h
  · cases h
  · cases h
  · exact (Option.some.inj h).symm

/-- A byte, with the quantifiers behind it. -/
theorem alternative_literal (h : alternative fuel g (.literal b :: ts) = some x) :
    ∃ fuel' f vs s, quantified (ts.length + 1) (.byte (.exactly b)) ts = some (f, vs)
      ∧ alternative fuel' g vs = some (s, x.2) ∧ x.1 = .seq f s :=
  alternative_atom (.inr (.inl ⟨b, rfl⟩)) (fun _ => rfl) h

/-- A byte without quantifiers. -/
theorem alternative_literal_of_none (hts : quantity? ts = some none)
    (h : alternative fuel g (.literal b :: ts) = some x) :
    ∃ fuel' s, alternative fuel' g ts = some (s, x.2) ∧ x.1 = literals [b] s := by
  obtain ⟨fuel', f, vs, s, hq, hs, hx⟩ := alternative_literal h
  rw [quantified_of_none hts] at hq
  obtain ⟨rfl, rfl⟩ := Prod.mk.inj (Option.some.inj hq)
  exact ⟨fuel', s, hs, hx⟩

/-- A text without quantifiers. -/
theorem alternative_literals {text : Bytes} (h : alternative fuel g (text.map .literal) = some x) :
    x = (literals text .empty, g, []) := by
  induction text generalizing fuel x with
  | nil => exact alternative_nil h
  | cons b text ih =>
    obtain ⟨fuel', s, hs, hx⟩ := alternative_literal_of_none (by cases text <;> rfl) h
    obtain ⟨rfl, hrest⟩ := Prod.mk.inj (ih hs)
    exact Prod.ext hx hrest

/-! ### Runs -/

/-- The ways to write any number of bytes, with the class of these bytes. -/
def runs : List (Bytes × ByteClass) :=
  [(Bytes.ascii ".*", .withinLine), (Bytes.ascii "[\\s\\S]*", .bracket false [.named .space, .unnamed .space]),
    (Bytes.ascii "[\\S\\s]*", .bracket false [.unnamed .space, .named .space]),
    (Bytes.ascii "[^]*", .bracket true [])]

/-- A run is cut into the tokens of its class and a star. -/
theorem lexes_run {run : Bytes} {c : ByteClass} (hrun : (run, c) ∈ runs) (rest : Bytes) (g : GroupCount) :
    ∃ t ts, (t = .dot ∨ (∃ b, t = .literal b) ∨ ∃ negated, t = .openBracket negated)
      ∧ Token.Lexes .outside (run ++ rest) (t :: (ts ++ [.star])) .outside rest
      ∧ ∀ fuel us, atom (fuel + 1) g (t :: (ts ++ us)) = some (some (.byte c, g, us)) := by
  simp only [runs, List.mem_cons, List.not_mem_nil, or_false, Prod.mk.injEq] at hrun
  rcases hrun with ⟨rfl, rfl⟩ | ⟨rfl, rfl⟩ | ⟨rfl, rfl⟩ | ⟨rfl, rfl⟩
  · rw [show Bytes.ascii ".*" = [Byte.dot, Byte.star] by decide]
    exact ⟨.dot, [], .inl rfl, .cons rfl (.cons rfl .nil), fun _ _ => rfl⟩
  · rw [show Bytes.ascii "[\\s\\S]*" = [Byte.openBracket, Byte.backslash, 's'.toUInt8, Byte.backslash,
      'S'.toUInt8, Byte.closeBracket, Byte.star] by decide]
    exact ⟨.openBracket false, [.classEscape 's'.toUInt8, .classEscape 'S'.toUInt8, .closeBracket],
      .inr (.inr ⟨_, rfl⟩), .cons rfl (.cons rfl (.cons rfl (.cons rfl (.cons rfl .nil)))), fun _ _ => rfl⟩
  · rw [show Bytes.ascii "[\\S\\s]*" = [Byte.openBracket, Byte.backslash, 'S'.toUInt8, Byte.backslash,
      's'.toUInt8, Byte.closeBracket, Byte.star] by decide]
    exact ⟨.openBracket false, [.classEscape 'S'.toUInt8, .classEscape 's'.toUInt8, .closeBracket],
      .inr (.inr ⟨_, rfl⟩), .cons rfl (.cons rfl (.cons rfl (.cons rfl (.cons rfl .nil)))), fun _ _ => rfl⟩
  · rw [show Bytes.ascii "[^]*" = [Byte.openBracket, Byte.caret, Byte.closeBracket, Byte.star] by decide]
    exact ⟨.openBracket true, [.closeBracket], .inr (.inr ⟨_, rfl⟩), .cons rfl (.cons rfl (.cons rfl .nil)),
      fun _ _ => rfl⟩

/-- A run is a class, repeated. -/
theorem alternative_classRun {run rest : Bytes} {c : ByteClass} (hrun : (run, c) ∈ runs)
    (hlex : Token.lexFrom fuel .outside (run ++ rest) = some ts) {k : Nat}
    (h : alternative k g ts = some x) :
    ∃ fuel' us k' f vs s, Token.lexFrom fuel' .outside rest = some us
      ∧ quantified (us.length + 2) (.byte c) (.star :: us) = some (f, vs)
      ∧ alternative k' g vs = some (s, x.2) ∧ x.1 = .seq f s := by
  obtain ⟨t, tokens, ht, hlexes, hatom⟩ := lexes_run hrun rest g
  obtain ⟨fuel', us, hus, rfl⟩ := hlexes.lexFrom hlex
  rw [List.cons_append, List.append_assoc, List.singleton_append] at h
  obtain ⟨k', f, vs, s, hq, hs, hx⟩ := alternative_atom ht (fun fuel => hatom fuel (.star :: us)) h
  exact ⟨fuel', us, k', f, vs, s, hus, hq, hs, hx⟩

/-- A run at the end of a text takes as many bytes as it can. -/
theorem alternative_classRun_last {run : Bytes} {c : ByteClass} (hrun : (run, c) ∈ runs)
    (hlex : Token.lexFrom fuel .outside run = some ts) {k : Nat} (h : alternative k g ts = some x) :
    x = (.seq (.repeated (.byte c) .star false) .empty, g, []) := by
  rw [← List.append_nil run] at hlex
  obtain ⟨fuel', us, k', f, vs, s, hus, hq, hs, hx⟩ := alternative_classRun hrun hlex h
  obtain rfl := Token.lexFrom_nil hus
  rw [quantified_star rfl] at hq
  obtain ⟨rfl, rfl⟩ := Prod.mk.inj (Option.some.inj hq)
  obtain ⟨rfl, hrest⟩ := Prod.mk.inj (alternative_nil hs)
  exact Prod.ext hx hrest

/-- A short run in front of plain text takes as few bytes as it can. -/
theorem alternative_classRun_short {run pattern text : Bytes} {c : ByteClass} (hrun : (run, c) ∈ runs)
    (hplain : Comment.plainText? pattern = some text)
    (hlex : Token.lexFrom fuel .outside (run ++ Byte.question :: pattern) = some ts) {k : Nat}
    (h : alternative k g ts = some x) :
    x = (.seq (.repeated (.byte c) .star true) (literals text .empty), g, []) := by
  obtain ⟨fuel', us, k', f, vs, s, hus, hq, hs, hx⟩ := alternative_classRun hrun hlex h
  obtain ⟨fuel'', us, hplain', rfl⟩ := Token.lexFrom_of_next? rfl hus
  obtain rfl := Token.lexFrom_plain hplain hplain'
  rw [quantified_star_short (by cases text <;> rfl)] at hq
  obtain ⟨rfl, rfl⟩ := Prod.mk.inj (Option.some.inj hq)
  obtain ⟨rfl, hrest⟩ := Prod.mk.inj (alternative_literals hs)
  exact Prod.ext hx hrest

/-! ### Expressions -/

/-- Behind an alternative the reader is at the end, or it goes on with another one. -/
theorem moreAlternatives_eq (h : moreAlternatives fuel r g ts = some x) :
    (x.1 = r ∧ x.2.2 = ts) ∨ ts ≠ [] ∧ ∃ a b, x.1 = .alt a b := by
  induction fuel generalizing r g ts with
  | zero => cases h
  | succ fuel ih =>
    unfold moreAlternatives at h
    split at h
    · obtain ⟨⟨s, g', ts'⟩, -, h⟩ := Option.bind_eq_some_iff.mp h
      refine .inr ⟨List.cons_ne_nil _ _, ?_⟩
      rcases ih h with ⟨hx, -⟩ | ⟨-, hx⟩
      · exact ⟨r, s, hx⟩
      · exact hx
    · obtain rfl := Option.some.inj h
      exact .inl ⟨rfl, rfl⟩

/-- What is read is the alternative that the text begins with, or it is a choice and the text goes on. -/
theorem exists_of_read? {source : Bytes} (h : read? source = some r) :
    ∃ fuel tokens fuel' x, Token.lexFrom fuel .outside source = some tokens
      ∧ alternative fuel' {} tokens = some x ∧ (r = x.1 ∨ x.2.2 ≠ [] ∧ ∃ a b, r = .alt a b) := by
  obtain ⟨tokens, htokens, h⟩ := Option.bind_eq_some_iff.mp h
  obtain ⟨⟨r', g, rest⟩, hr', h⟩ := Option.bind_eq_some_iff.mp h
  obtain ⟨x, hx, hmore⟩ := Option.bind_eq_some_iff.mp hr'
  obtain rfl : r' = r := by
    change (if (rest.isEmpty && decide (r'.cost + 3 ≤ costLimit)) = true then some r' else none) = some r at h
    split at h
    · exact Option.some.inj h
    · cases h
  refine ⟨_, tokens, _, x, htokens, hx, ?_⟩
  rcases moreAlternatives_eq hmore with ⟨hr, -⟩ | hr
  · exact .inl hr
  · exact .inr hr

end Regex

end Packrat
