import Packrat.Expr.Token
import Mathlib.Data.List.TakeWhile

/-!
Cutting and spelling tokens.

A token is cut off a text exactly as it is spelled (`Token.next_eq_ok`), and a spelled token is cut
off again (`Token.Regular.next`), provided that what follows a word does not go on with it.
`Token.Cuts` chains such steps; a text that is cut up to blanks at its end lexes without a fault
(`Token.Cuts.lex`).
-/

namespace Packrat

theorem drop_length_takeWhile (p : UInt8 → Bool) (bs : Bytes) :
    bs.drop (bs.takeWhile p).length = bs.dropWhile p := by
  induction bs with
  | nil => rfl
  | cons b bs ih => by_cases h : p b <;> simp [h, ih]

namespace Token

/-! ### Delimited texts -/

/-- A text that ends at the next closing byte behind it, whatever follows. -/
def Closes (closing : UInt8) (body : Bytes) : Prop :=
  ∀ rest, delimited closing (body ++ closing :: rest) = some (body, rest)

theorem delimited_escaped (closing b : UInt8) (bs : Bytes) :
    delimited closing (Byte.backslash :: b :: bs)
      = (delimited closing bs).map fun r => (Byte.backslash :: b :: r.1, r.2) :=
  delimited.eq_2 closing b bs

theorem delimited_cons {closing b : UInt8} (hb : b ≠ Byte.backslash) (bs : Bytes) :
    delimited closing (b :: bs)
      = if b == closing then some ([], bs)
        else (delimited closing bs).map fun r => (b :: r.1, r.2) := by
  rw [delimited]
  exact fun _ _ h => absurd h hb

theorem closes_nil {closing : UInt8} (hc : closing ≠ Byte.backslash) : Closes closing [] :=
  fun rest => by simp [delimited_cons hc]

theorem Closes.escaped {closing : UInt8} {body : Bytes} (h : Closes closing body) (b : UInt8) :
    Closes closing (Byte.backslash :: b :: body) :=
  fun rest => by simp [delimited_escaped, h rest]

theorem Closes.cons {closing b : UInt8} {body : Bytes} (h : Closes closing body)
    (hb : b ≠ Byte.backslash) (hc : b ≠ closing) : Closes closing (b :: body) :=
  fun rest => by simp [delimited_cons hb, hc, h rest]

/-- What is cut off stands in front of a closing byte, and would do so anywhere. -/
theorem delimited_eq_some {closing : UInt8} (hc : closing ≠ Byte.backslash) {bs body rest : Bytes}
    (h : delimited closing bs = some (body, rest)) :
    bs = body ++ closing :: rest ∧ Closes closing body := by
  induction bs using delimited.induct closing generalizing body rest with
  | case1 => simp [delimited] at h
  | case2 b bs ih =>
    change delimited closing (Byte.backslash :: b :: bs) = _ at h
    rw [delimited_escaped] at h
    obtain ⟨r, hr, he⟩ := Option.map_eq_some_iff.mp h
    obtain ⟨rfl, rfl⟩ := Prod.mk.inj he
    obtain ⟨rfl, hbody⟩ := ih hr
    exact ⟨rfl, hbody.escaped b⟩
  | case3 b bs hb heq =>
    obtain rfl : b = closing := by simpa using heq
    rw [delimited_cons hc] at h
    simp only [beq_self_eq_true, if_true, Option.some.injEq, Prod.mk.injEq] at h
    obtain ⟨rfl, rfl⟩ := h
    exact ⟨rfl, closes_nil hc⟩
  | case4 b bs hb hne ih =>
    have hne' : b ≠ closing := by simpa using hne
    by_cases hs : b = Byte.backslash
    · -- A backslash at the very end protects nothing and leaves no closing byte.
      subst hs
      cases bs with
      | nil => simp [delimited, Ne.symm hc] at h
      | cons b' bs => exact absurd rfl (fun h' => hb b' bs rfl h')
    · rw [delimited_cons hs, if_neg hne] at h
      obtain ⟨r, hr, he⟩ := Option.map_eq_some_iff.mp h
      obtain ⟨rfl, rfl⟩ := Prod.mk.inj he
      obtain ⟨rfl, hbody⟩ := ih hr
      exact ⟨rfl, hbody.cons hs hne'⟩

/-! ### Single tokens -/

/-- The bytes that are tokens of their own. -/
def marks : Bytes :=
  [Byte.plus, Byte.star, Byte.closeParen, Byte.openParen, Byte.slash, Byte.question, Byte.bang,
    Byte.ampersand, Byte.dot]

theorem isMark_iff {b : UInt8} : isMark b ↔ b ∈ marks := by
  rw [isMark, show Bytes.ascii "+*)(/?!&." = marks by decide, List.contains_iff_mem]

/-- The marks are none of the other bytes that a token begins with. -/
theorem of_isMark {b : UInt8} (h : isMark b) :
    ¬ Byte.isBlank b ∧ ¬ Byte.isWord b ∧ (b == Byte.quote || b == Byte.doubleQuote) = false
      ∧ (b == Byte.openBracket) = false ∧ (b == Byte.atSign) = false := by
  have miss (p : UInt8 → Bool) (hp : (marks.all fun c => !p c) = true) : p b = false := by
    simpa using List.all_eq_true.mp hp b (isMark_iff.mp h)
  exact ⟨by rw [miss Byte.isBlank (by decide)]; decide, by rw [miss Byte.isWord (by decide)]; decide,
    miss (fun c => c == Byte.quote || c == Byte.doubleQuote) (by decide),
    miss (· == Byte.openBracket) (by decide), miss (· == Byte.atSign) (by decide)⟩

theorem ne_of_isWord {b c : UInt8} (h : Byte.isWord b) (hc : ¬ Byte.isWord c) : b ≠ c := by
  rintro rfl
  exact hc h

/-- A word begins with none of the bytes that other tokens begin with. -/
theorem of_isWord {b : UInt8} (h : Byte.isWord b) :
    ¬ Byte.isBlank b ∧ ¬ isMark b ∧ (b == Byte.quote || b == Byte.doubleQuote) = false
      ∧ (b == Byte.openBracket) = false ∧ (b == Byte.atSign) = false := by
  have ne {c : UInt8} (hc : ¬ Byte.isWord c) : b ≠ c := ne_of_isWord h hc
  refine ⟨?_, fun hm => (of_isMark hm).2.1 h, ?_, ?_, ?_⟩
  · simp [Byte.isBlank, ne (c := Byte.blank) (by decide), ne (c := Byte.tab) (by decide),
      ne (c := Byte.cr) (by decide), ne (c := Byte.newline) (by decide)]
  · simp [ne (c := Byte.quote) (by decide), ne (c := Byte.doubleQuote) (by decide)]
  · simp [ne (c := Byte.openBracket) (by decide)]
  · simp [ne (c := Byte.atSign) (by decide)]

/-- A word is cut off as far as it goes. -/
theorem next_of_isWord {b : UInt8} (hb : Byte.isWord b) (bs : Bytes) :
    next b bs = .ok (word (b :: bs.takeWhile Byte.isWord), bs.dropWhile Byte.isWord) := by
  obtain ⟨-, hmark, hquote, hbracket, hat⟩ := of_isWord hb
  simp [next, hquote, hbracket, hat, hmark, hb, drop_length_takeWhile]

/-- A token that can be cut off its own spelling. -/
def Regular : Token → Prop
  | quoted q body => (q = Byte.quote ∨ q = Byte.doubleQuote) ∧ Closes q body
  | bracket body => Closes Byte.closeBracket body
  | label name | word name => name ≠ [] ∧ ∀ b ∈ name, Byte.isWord b
  | mark b => isMark b

/-- Whether a text does not go on with a word. -/
def Stops (rest : Bytes) : Prop := ∀ b ∈ rest.head?, ¬ Byte.isWord b

/-- Whether a text may follow a token: behind a word it must not go on with it. -/
def MayPrecede : Token → Bytes → Prop
  | word _, rest => Stops rest
  | _, _ => True

/-- A token is the beginning of the text it is cut off. -/
theorem next_eq_ok {b : UInt8} {bs rest : Bytes} {t : Token} (h : next b bs = .ok (t, rest)) :
    b :: bs = t.spelling ++ rest ∧ t.Regular := by
  unfold next at h
  split at h
  · next hq =>
    have hq' : b = Byte.quote ∨ b = Byte.doubleQuote := by simpa using hq
    have hs : b ≠ Byte.backslash := by rintro rfl; exact absurd hq (by decide)
    cases hd : delimited b bs with
    | none => simp [hd] at h
    | some r =>
      obtain ⟨body, rest'⟩ := r
      simp only [hd, Except.ok.injEq, Prod.mk.injEq] at h
      obtain ⟨rfl, rfl⟩ := h
      obtain ⟨rfl, hbody⟩ := delimited_eq_some hs hd
      exact ⟨by simp [spelling], hq', hbody⟩
  split at h
  · next hb =>
    obtain rfl : b = Byte.openBracket := by simpa using hb
    cases hd : delimited Byte.closeBracket bs with
    | none => simp [hd] at h
    | some r =>
      obtain ⟨body, rest'⟩ := r
      simp only [hd, Except.ok.injEq, Prod.mk.injEq] at h
      obtain ⟨rfl, rfl⟩ := h
      obtain ⟨rfl, hbody⟩ := delimited_eq_some (by decide) hd
      exact ⟨by simp [spelling], hbody⟩
  split at h
  · next hb =>
    obtain rfl : b = Byte.atSign := by simpa using hb
    simp only at h
    split at h
    · next rest' hd =>
      split at h
      · cases h
      · next hne =>
        simp only [Except.ok.injEq, Prod.mk.injEq] at h
        obtain ⟨rfl, rfl⟩ := h
        have hbs : bs = bs.takeWhile Byte.isWord ++ Byte.colon :: rest' := by
          rw [drop_length_takeWhile] at hd
          exact List.takeWhile_append_dropWhile.symm.trans (congrArg (_ ++ ·) hd)
        refine ⟨by simpa [spelling] using hbs, ⟨by simpa using hne, ?_⟩⟩
        exact fun c hc => List.mem_takeWhile_imp hc
    · cases h
  split at h
  · next hm =>
    simp only [Except.ok.injEq, Prod.mk.injEq] at h
    obtain ⟨rfl, rfl⟩ := h
    exact ⟨rfl, hm⟩
  split at h
  · next hw =>
    simp only [Except.ok.injEq, Prod.mk.injEq] at h
    obtain ⟨rfl, rfl⟩ := h
    refine ⟨?_, by simp, ?_⟩
    · simp [spelling, drop_length_takeWhile]
    · intro c hc
      rcases List.mem_cons.mp hc with rfl | hc
      · exact hw
      · exact List.mem_takeWhile_imp hc
  · cases h

/-- A word, and nothing more, is taken off a text that stops behind it. -/
theorem takeWhile_isWord_append {name : Bytes} (hn : ∀ b ∈ name, Byte.isWord b) {rest : Bytes}
    (hr : Stops rest) : (name ++ rest).takeWhile Byte.isWord = name := by
  rw [List.takeWhile_append_of_pos hn]
  cases rest with
  | nil => simp
  | cons b bs => simp [hr b rfl]

/-- What a token is spelled as begins with no white space, and the token is cut off it again. -/
theorem Regular.next {t : Token} (ht : t.Regular) {rest : Bytes} (hr : t.MayPrecede rest) :
    ∃ b bs, t.spelling ++ rest = b :: bs ∧ ¬ Byte.isBlank b ∧ next b bs = .ok (t, rest) := by
  cases t with
  | quoted q body =>
    obtain ⟨hq, hbody⟩ := ht
    refine ⟨q, body ++ q :: rest, by simp [spelling], ?_, ?_⟩
    · rcases hq with rfl | rfl <;> decide
    · have hq' : (q == Byte.quote || q == Byte.doubleQuote) = true := by simpa using hq
      simp [Token.next, hq', hbody rest]
  | bracket body =>
    refine ⟨Byte.openBracket, body ++ Byte.closeBracket :: rest, by simp [spelling], by decide, ?_⟩
    rw [Token.next, if_neg (by decide), if_pos (by decide), ht rest]
  | label name =>
    obtain ⟨hne, hn⟩ := ht
    refine ⟨Byte.atSign, name ++ Byte.colon :: rest, by simp [spelling], by decide, ?_⟩
    have hname : (name ++ Byte.colon :: rest).takeWhile Byte.isWord = name :=
      takeWhile_isWord_append hn fun b hb => by
        obtain rfl : Byte.colon = b := by simpa using hb
        decide
    rw [Token.next, if_neg (by decide), if_neg (by decide), if_pos (by decide), hname]
    simp only [List.drop_left, List.isEmpty_eq_false_iff.mpr hne]
    rfl
  | word name =>
    obtain ⟨hne, hn⟩ := ht
    cases name with
    | nil => exact absurd rfl hne
    | cons b bs =>
      have hb : Byte.isWord b := hn b (by simp)
      have hbs : (bs ++ rest).takeWhile Byte.isWord = bs :=
        takeWhile_isWord_append (fun c hc => hn c (by simp [hc])) hr
      refine ⟨b, bs ++ rest, rfl, (of_isWord hb).1, ?_⟩
      rw [next_of_isWord hb, ← drop_length_takeWhile, hbs, List.drop_left]
  | mark b =>
    obtain ⟨hblank, -, hquote, hbracket, hat⟩ := of_isMark ht
    exact ⟨b, rest, rfl, hblank, by simp [Token.next, hquote, hbracket, hat, show isMark b from ht]⟩

theorem Regular.spelling_pos {t : Token} (ht : t.Regular) : 0 < t.spelling.length := by
  cases t with
  | word name => exact List.length_pos_iff.mpr ht.1
  | _ => simp [spelling]

/-! ### Texts -/

/-- Every token of a text is regular and stands in it. -/
theorem of_mem_lexFrom {fuel o : Nat} {bs : Bytes} {t : Token}
    (ht : t ∈ (lexFrom fuel o bs).tokens.map (·.1)) : t.Regular ∧ t.spelling ⊆ bs := by
  induction fuel generalizing o bs with
  | zero => simp [lexFrom] at ht
  | succ fuel ih =>
    simp only [lexFrom, drop_length_takeWhile] at ht
    cases hd : bs.dropWhile Byte.isBlank with
    | nil => simp [hd] at ht
    | cons b bs' =>
      have hsub : b :: bs' ⊆ bs := hd ▸ (List.dropWhile_suffix _).subset
      cases hn : next b bs' with
      | error e => simp [hd, hn] at ht
      | ok r =>
        obtain ⟨t', mid⟩ := r
        obtain ⟨heq, hreg⟩ := next_eq_ok hn
        simp only [hd, hn, List.map_cons, List.mem_cons] at ht
        rcases ht with rfl | ht
        · have hspelling : t.spelling ⊆ b :: bs' := heq ▸ List.subset_append_left _ _
          exact ⟨hreg, List.Subset.trans hspelling hsub⟩
        · have hmid : mid ⊆ b :: bs' := heq ▸ List.subset_append_right _ _
          exact (ih ht).imp_right fun h => List.Subset.trans h (List.Subset.trans hmid hsub)

/-- Tokens cut off a text one after the other, with the white space in front of them. -/
inductive Cuts : Bytes → List Token → Bytes → Prop
  | nil (bs : Bytes) : Cuts bs [] bs
  | cons {bs bs' mid rest : Bytes} {b : UInt8} {t : Token} {ts : List Token} :
      bs.dropWhile Byte.isBlank = b :: bs' → next b bs' = .ok (t, mid) → Cuts mid ts rest →
      Cuts bs (t :: ts) rest

namespace Cuts

theorem append {bs mid rest : Bytes} {ts us : List Token} (h : Cuts bs ts mid)
    (h' : Cuts mid us rest) : Cuts bs (ts ++ us) rest := by
  induction h with
  | nil => exact h'
  | cons hb hn _ ih => exact .cons hb hn (ih h')

/-- A token cut off its own spelling. -/
theorem token {t : Token} (ht : t.Regular) {rest : Bytes} (hr : t.MayPrecede rest) :
    Cuts (t.spelling ++ rest) [t] rest := by
  obtain ⟨b, bs, heq, hb, hn⟩ := ht.next hr
  exact .cons (by rw [heq, List.dropWhile_cons_of_neg hb]) hn (.nil rest)

/-- White space in front of a token does not count. -/
theorem blank {bs rest : Bytes} {t : Token} {ts : List Token} (h : Cuts bs (t :: ts) rest) :
    Cuts (Byte.blank :: bs) (t :: ts) rest := by
  cases h with
  | cons hb hn hts => exact .cons (by rw [List.dropWhile_cons_of_pos (by decide), hb]) hn hts

theorem length_le {bs rest : Bytes} {ts : List Token} (h : Cuts bs ts rest) :
    ts.length + rest.length ≤ bs.length := by
  induction h with
  | nil => simp
  | @cons bs bs' mid rest b t ts hb hn _ ih =>
    have hbs : (b :: bs').length ≤ bs.length := hb ▸ (List.dropWhile_suffix _).length_le
    have hmid : bs'.length + 1 = t.spelling.length + mid.length := by
      simpa using congrArg List.length (next_eq_ok hn).1
    have hpos : 0 < t.spelling.length := (next_eq_ok hn).2.spelling_pos
    simp only [List.length_cons] at hbs ⊢
    omega

/-- A text that is cut up to blanks at its end lexes as the tokens cut off it. -/
theorem lexFrom {bs rest : Bytes} {ts : List Token} (h : Cuts bs ts rest)
    (hrest : rest.dropWhile Byte.isBlank = []) {fuel : Nat} (hfuel : ts.length < fuel) (o : Nat) :
    (Token.lexFrom fuel o bs).tokens.map (·.1) = ts ∧ (Token.lexFrom fuel o bs).fault = none := by
  induction h generalizing fuel o with
  | nil bs =>
    cases fuel with
    | zero => exact absurd hfuel (by simp)
    | succ fuel => simp [Token.lexFrom, drop_length_takeWhile, hrest]
  | cons hb hn _ ih =>
    cases fuel with
    | zero => exact absurd hfuel (by simp)
    | succ fuel =>
      rw [List.length_cons, Nat.add_lt_add_iff_right] at hfuel
      simpa [Token.lexFrom, drop_length_takeWhile, hb, hn] using ih hrest hfuel _

theorem lex {bs rest : Bytes} {ts : List Token} (h : Cuts bs ts rest)
    (hrest : rest.dropWhile Byte.isBlank = []) :
    (Token.lex bs).tokens.map (·.1) = ts ∧ (Token.lex bs).fault = none :=
  h.lexFrom hrest (by have := h.length_le; omega) 0

end Cuts

end Token

end Packrat
