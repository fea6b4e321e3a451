import Packrat.Proofs.Expr.Phrases
import Packrat.Proofs.Expr.Tokens

/-!
What is a pattern.

A text has tokens if it is made of them and of white space in front of them and at its end
(`Token.Tokenizes`): delimited tokens end at the first closing byte that is not escaped, and a word does
not end where it could go on.  This is stated without the lexer.  The lexer finds these tokens, and is
without a fault, exactly if there are any (`Token.tokenizes_iff`).  So a text is a pattern that stands
for an expression (`Expr.Written`) if it has tokens that are an ordered choice.

Main statement (`Expr.read_iff_written`): a text is read as an expression exactly if it is a pattern
that stands for it, there is one such expression at most, and every other text is refused.
-/

namespace Packrat

namespace Token

variable {t : Token} {b closing : UInt8} {bs rest body : Bytes} {ts : List Token}

/-! ### How tokens are written -/

/-- Bytes among which a closing byte stands only behind a backslash; every backslash has a byte behind it,
which it protects. -/
inductive Enclosed (closing : UInt8) : Bytes → Prop
  | nil : Enclosed closing []
  | escaped {body : Bytes} (b : UInt8) : Enclosed closing body →
      Enclosed closing (Byte.backslash :: b :: body)
  | plain {body : Bytes} {b : UInt8} : b ≠ Byte.backslash → b ≠ closing → Enclosed closing body →
      Enclosed closing (b :: body)

/-- A backslash with nothing behind it would protect the closing byte. -/
theorem not_closes_backslash : ¬Closes closing [Byte.backslash] := by
  intro h
  have hend := h []
  rw [List.cons_append, List.nil_append, delimited_escaped, delimited, Option.map_none] at hend
  cases hend

theorem Closes.of_escaped (h : Closes closing (Byte.backslash :: b :: body)) : Closes closing body := by
  intro rest
  have hrest := h rest
  rw [List.cons_append, List.cons_append, delimited_escaped] at hrest
  obtain ⟨⟨body', rest'⟩, hcut, heq⟩ := Option.map_eq_some_iff.mp hrest
  cases heq
  exact hcut

theorem Closes.of_cons (h : Closes closing (b :: body)) (hb : b ≠ Byte.backslash) :
    b ≠ closing ∧ Closes closing body := by
  have hne : b ≠ closing := by
    rintro rfl
    have hend := h []
    rw [List.cons_append, delimited_cons hb, if_pos (beq_self_eq_true b)] at hend
    cases hend
  refine ⟨hne, fun rest => ?_⟩
  have hrest := h rest
  rw [List.cons_append, delimited_cons hb, if_neg (by simpa using hne)] at hrest
  obtain ⟨⟨body', rest'⟩, hcut, heq⟩ := Option.map_eq_some_iff.mp hrest
  cases heq
  exact hcut

theorem Closes.enclosed : ∀ {body : Bytes}, Closes closing body → Enclosed closing body
  | [], _ => .nil
  | b :: body, h => by
    by_cases hb : b = Byte.backslash
    · subst hb
      cases body with
      | nil => exact absurd h not_closes_backslash
      | cons b body => exact .escaped b h.of_escaped.enclosed
    · obtain ⟨hne, h⟩ := h.of_cons hb
      exact .plain hb hne h.enclosed
termination_by body => body.length

/-- What is enclosed is what is cut off in front of the closing byte. -/
theorem closes_iff_enclosed (hc : closing ≠ Byte.backslash) :
    Closes closing body ↔ Enclosed closing body := by
  refine ⟨Closes.enclosed, fun h => ?_⟩
  induction h with
  | nil => exact closes_nil hc
  | escaped b _ ih => exact ih.escaped b
  | plain hb hne _ ih => exact ih.cons hb hne

/-- A token as it can be written. -/
def WellFormed : Token → Prop
  | quoted q body => (q = Byte.quote ∨ q = Byte.doubleQuote) ∧ Enclosed q body
  | bracket body => Enclosed Byte.closeBracket body
  | label name | word name => name ≠ [] ∧ ∀ b ∈ name, Byte.isWord b
  | mark b => b ∈ marks

theorem regular_iff_wellFormed : t.Regular ↔ t.WellFormed := by
  cases t with
  | quoted q body =>
    refine and_congr_right fun hq => closes_iff_enclosed ?_
    rcases hq with rfl | rfl <;> decide
  | bracket body => exact closes_iff_enclosed (by decide)
  | label name | word name => exact Iff.rfl
  | mark b => exact isMark_iff

/-- The tokens of a text: it is made of them, with white space in front of each and at the end, and none
of its words goes on behind its end. -/
inductive Tokenizes : Bytes → List Token → Prop
  | nil {gap : Bytes} : (∀ b ∈ gap, Byte.isBlank b) → Tokenizes gap []
  | cons {gap rest : Bytes} {t : Token} {ts : List Token} : (∀ b ∈ gap, Byte.isBlank b) →
      t.WellFormed → t.MayPrecede rest → Tokenizes rest ts →
      Tokenizes (gap ++ (t.spelling ++ rest)) (t :: ts)

/-! ### The lexer finds them -/

theorem stops_dropWhile (bs : Bytes) : Stops (bs.dropWhile Byte.isWord) := by
  intro b hb
  have hnot := List.head?_dropWhile_not Byte.isWord bs
  rw [hb] at hnot
  simpa using hnot

/-- A word is cut off as a whole. -/
theorem mayPrecede_of_next (h : next b bs = .ok (t, rest)) : t.MayPrecede rest := by
  cases t with
  | word name =>
    obtain ⟨heq, hne, hname⟩ := next_eq_ok h
    cases name with
    | nil => exact absurd rfl hne
    | cons c name =>
      obtain ⟨rfl, -⟩ := List.cons.inj heq
      rw [next_of_isWord (hname b List.mem_cons_self)] at h
      cases h
      exact stops_dropWhile bs
  | _ => trivial

theorem tokenizes_lexFrom {fuel o : Nat} (hfuel : bs.length < fuel)
    (hfault : (lexFrom fuel o bs).fault = none) :
    Tokenizes bs ((lexFrom fuel o bs).tokens.map (·.1)) := by
  induction fuel generalizing o bs with
  | zero => omega
  | succ fuel ih =>
    have hgap : ∀ b ∈ bs.takeWhile Byte.isBlank, Byte.isBlank b := fun _ => List.mem_takeWhile_imp
    have hsplit := List.takeWhile_append_dropWhile (p := Byte.isBlank) (l := bs)
    simp only [lexFrom, drop_length_takeWhile] at hfault ⊢
    cases hd : bs.dropWhile Byte.isBlank with
    | nil =>
      rw [hd, List.append_nil] at hsplit
      simpa only [hd, List.map_nil] using .nil (hsplit ▸ hgap)
    | cons b bs' =>
      cases hn : next b bs' with
      | error e => simp [hd, hn] at hfault
      | ok r =>
        obtain ⟨t, rest⟩ := r
        obtain ⟨heq, hreg⟩ := next_eq_ok hn
        simp only [hd, hn, List.map_cons] at hfault ⊢
        have hlength := congrArg List.length (hsplit.symm.trans (congrArg _ (hd.trans heq)))
        have hpos := hreg.spelling_pos
        simp only [List.length_append] at hlength
        have hcons := Tokenizes.cons hgap (regular_iff_wellFormed.mp hreg) (mayPrecede_of_next hn)
          (ih (by omega) hfault)
        rwa [← heq, ← hd, hsplit] at hcons

theorem Tokenizes.cuts (h : Tokenizes bs ts) :
    ∃ rest, Cuts bs ts rest ∧ rest.dropWhile Byte.isBlank = [] := by
  induction h with
  | @nil gap hgap => exact ⟨gap, .nil gap, by simpa using hgap⟩
  | @cons gap rest t ts hgap ht hrest _ ih =>
    obtain ⟨last, hcuts, hlast⟩ := ih
    obtain ⟨b, bs, heq, hb, hn⟩ := (regular_iff_wellFormed.mpr ht).next hrest
    refine ⟨last, .cons ?_ hn hcuts, hlast⟩
    rw [List.dropWhile_append_of_pos hgap, heq, List.dropWhile_cons_of_neg hb]

/-- **The lexer is exact.** The tokens of a text are those that the lexer finds without a fault. -/
theorem tokenizes_iff : Tokenizes bs ts ↔ (lex bs).fault = none ∧ (lex bs).tokens.map (·.1) = ts := by
  refine ⟨fun h => ?_, fun ⟨hfault, htokens⟩ => ?_⟩
  · obtain ⟨rest, hcuts, hrest⟩ := h.cuts
    exact (hcuts.lex hrest).symm
  · exact htokens ▸ tokenizes_lexFrom (Nat.lt_succ_self _) hfault

end Token

namespace Expr

/-- A text that is a pattern and stands for an expression: its tokens are an ordered choice. -/
def Written (source : Bytes) (e : Expr) : Prop :=
  ∃ ts es, Token.Tokenizes source ts ∧ Phrase .choice ts es ∧ e = alternatives es

/-- **Patterns are read, and nothing else is.** A text is read as an expression if and only if its tokens
derive an ordered choice that stands for the expression.  No text stands for two expressions, and a text
that stands for none is refused. -/
theorem read_iff_written (source : Bytes) :
    (∀ e, read source = .ok e ↔ Written source e)
      ∧ (∀ e e', Written source e → Written source e' → e = e')
      ∧ ((∃ error, read source = .error error) ↔ ¬∃ e, Written source e) := by
  have hiff : ∀ e, read source = .ok e ↔ Written source e := by
    intro e
    constructor
    · intro h
      obtain ⟨hfault, es, hphrase, he⟩ := phrase_of_readInput h
      exact ⟨_, es, Token.tokenizes_iff.mpr ⟨hfault, rfl⟩, hphrase, he⟩
    · rintro ⟨ts, es, htokens, hphrase, rfl⟩
      obtain ⟨hfault, htokens⟩ := Token.tokenizes_iff.mp htokens
      exact readInput_of_phrase hphrase ⟨htokens, hfault⟩
  refine ⟨hiff, fun e e' h h' => ?_, ?_⟩
  · exact Except.ok.inj (((hiff e).mpr h).symm.trans ((hiff e').mpr h'))
  · simp only [← hiff]
    cases read source <;> simp

end Expr

end Packrat
