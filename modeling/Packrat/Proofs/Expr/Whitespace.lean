import Packrat.Proofs.Expr.Acceptance
import Packrat.Proofs.Expr.Printing

/-!
White space between the tokens of a pattern.

What a text is read as depends on its tokens alone (`Expr.read_of_tokens`), and white space around the
text or between two tokens changes none of them (`Token.tokenizes_trim`, `Token.tokenizes_append_iff`).
So a text may be cut into pieces between its tokens (`Token.Boundary`): every piece has tokens of its own,
and together they are those of the text (`Token.Tokenizes.pieces`).
-/

namespace Packrat

/-- A text is what is left of it when it is trimmed, with white space around it. -/
theorem Bytes.trim_spec (bs : Bytes) :
    ∃ front back, (∀ b ∈ front, Byte.isBlank b) ∧ (∀ b ∈ back, Byte.isBlank b)
      ∧ bs = front ++ (Bytes.trim bs ++ back) := by
  refine ⟨bs.takeWhile Byte.isBlank,
    ((bs.dropWhile Byte.isBlank).reverse.takeWhile Byte.isBlank).reverse,
    fun _ => List.mem_takeWhile_imp, fun b hb => List.mem_takeWhile_imp (List.mem_reverse.mp hb), ?_⟩
  rw [Bytes.trim, ← List.reverse_append, List.takeWhile_append_dropWhile, List.reverse_reverse,
    List.takeWhile_append_dropWhile]

namespace Token

variable {t : Token} {bs gap more : Bytes} {ts vs : List Token} {fuel o : Nat}

/-! ### The lexer, token by token -/

/-- White space in front of a text only moves its tokens. -/
theorem lexFrom_gap (hgap : ∀ b ∈ gap, Byte.isBlank b) (fuel o : Nat) (bs : Bytes) :
    lexFrom fuel o (gap ++ bs) = lexFrom fuel (o + gap.length) bs := by
  cases fuel with
  | zero => rfl
  | succ fuel =>
    rw [lexFrom, lexFrom, drop_length_takeWhile, drop_length_takeWhile,
      List.takeWhile_append_of_pos hgap, List.dropWhile_append_of_pos hgap, List.length_append,
      Nat.add_assoc]

/-- The first token of a text, and the tokens behind it. -/
theorem lexFrom_token (hgap : ∀ b ∈ gap, Byte.isBlank b) (ht : t.Regular) (hmore : t.MayPrecede more)
    (fuel o : Nat) :
    lexFrom (fuel + 1) o (gap ++ (t.spelling ++ more))
      = { lexFrom fuel (o + gap.length + t.spelling.length) more with
          tokens := (t, o + gap.length)
            :: (lexFrom fuel (o + gap.length + t.spelling.length) more).tokens } := by
  obtain ⟨b, bs, heq, hb, hnext⟩ := ht.next hmore
  rw [lexFrom_gap hgap, heq, lexFrom, drop_length_takeWhile, List.dropWhile_cons_of_neg hb,
    List.takeWhile_cons_of_neg hb]
  simp only [hnext, List.length_nil, Nat.add_zero]

theorem Tokenizes.unique (h : Tokenizes bs ts) (h' : Tokenizes bs vs) : ts = vs :=
  (tokenizes_iff.mp h).2.symm.trans (tokenizes_iff.mp h').2

/-! ### White space at the ends -/

theorem tokenizes_nil (hgap : ∀ b ∈ gap, Byte.isBlank b) : Tokenizes gap ts ↔ ts = [] :=
  ⟨fun h => h.unique (.nil hgap), fun h => h ▸ .nil hgap⟩

theorem tokenizes_gap_append (hgap : ∀ b ∈ gap, Byte.isBlank b) :
    Tokenizes (gap ++ bs) ts ↔ Tokenizes bs ts := by
  constructor
  · intro h
    obtain ⟨hfault, htokens⟩ := tokenizes_iff.mp h
    rw [lex, lexFrom_gap hgap] at hfault htokens
    exact htokens ▸ tokenizes_lexFrom (by rw [List.length_append]; omega) hfault
  · intro h
    cases h with
    | nil hbs => exact .nil (List.forall_mem_append.mpr ⟨hgap, hbs⟩)
    | cons hgap' ht hrest h =>
      rw [← List.append_assoc]
      exact .cons (List.forall_mem_append.mpr ⟨hgap, hgap'⟩) ht hrest h

/-- White space begins here, if anything does. -/
def Separate (more : Bytes) : Prop := ∀ b ∈ more.head?, Byte.isBlank b

theorem Separate.stops (h : Separate more) : Stops more := fun b hb hword =>
  (of_isWord hword).1 (h b hb)

theorem Tokenizes.append (h : Tokenizes bs ts) (hmore : Separate more) (h' : Tokenizes more vs) :
    Tokenizes (bs ++ more) (ts ++ vs) := by
  induction h with
  | nil hgap => exact (tokenizes_gap_append hgap).mpr h'
  | cons hgap ht hrest _ ih =>
    rw [List.append_assoc, List.append_assoc]
    exact .cons hgap ht (hrest.append hmore.stops) ih

/-- The lexer goes through a text that has tokens and then on behind it. -/
theorem Tokenizes.lexFrom_append (h : Tokenizes bs ts) (hmore : Separate more)
    (hfuel : (bs ++ more).length < fuel) (o : Nat) :
    ∃ fuel' o', more.length < fuel'
      ∧ (lexFrom fuel o (bs ++ more)).tokens.map (·.1) = ts ++ (lexFrom fuel' o' more).tokens.map (·.1)
      ∧ (lexFrom fuel o (bs ++ more)).fault = (lexFrom fuel' o' more).fault := by
  induction h generalizing fuel o with
  | @nil gap hgap =>
    rw [List.length_append] at hfuel
    exact ⟨fuel, o + gap.length, by omega, by rw [lexFrom_gap hgap]; rfl, by rw [lexFrom_gap hgap]⟩
  | @cons gap rest t ts hgap ht hrest h ih =>
    have hreg := regular_iff_wellFormed.mpr ht
    have hpos := hreg.spelling_pos
    simp only [List.length_append] at hfuel
    obtain ⟨fuel, rfl⟩ : ∃ k, fuel = k + 1 := ⟨fuel - 1, by omega⟩
    obtain ⟨fuel', o', hfuel', htokens, hfault⟩ := ih
      (show (rest ++ more).length < fuel by rw [List.length_append]; omega) (o + gap.length + t.spelling.length)
    refine ⟨fuel', o', hfuel', ?_, ?_⟩
    · rw [List.append_assoc, List.append_assoc, lexFrom_token hgap hreg (hrest.append hmore.stops),
        List.map_cons, htokens, List.cons_append]
    · rw [List.append_assoc, List.append_assoc, lexFrom_token hgap hreg (hrest.append hmore.stops), hfault]

/-- **Joining.** Behind a text with tokens and white space, a text adds its own tokens, if it has any. -/
theorem tokenizes_append_iff (h : Tokenizes bs ts) (hmore : Separate more) :
    Tokenizes (bs ++ more) vs ↔ ∃ us, Tokenizes more us ∧ vs = ts ++ us := by
  constructor
  · intro hvs
    obtain ⟨hfault, htokens⟩ := tokenizes_iff.mp hvs
    obtain ⟨fuel', o', hfuel', htokens', hfault'⟩ :=
      h.lexFrom_append hmore (Nat.lt_succ_self _) 0
    exact ⟨_, tokenizes_lexFrom hfuel' (hfault'.symm.trans hfault), htokens.symm.trans htokens'⟩
  · rintro ⟨us, hus, rfl⟩
    exact h.append hmore hus

theorem separate_of_blank (hgap : ∀ b ∈ gap, Byte.isBlank b) : Separate gap := fun b hb =>
  hgap b (List.mem_of_mem_head? hb)

theorem MayPrecede.of_append (h : t.MayPrecede (bs ++ more)) : t.MayPrecede bs := by
  cases t with
  | word name =>
    intro b hb
    refine h b ?_
    rw [List.head?_append, hb]
    rfl
  | _ => trivial

/-- No token ends with white space. -/
theorem WellFormed.getLast?_spelling (ht : t.WellFormed) (hgap : ∀ b ∈ gap, Byte.isBlank b)
    {bs' : Bytes} (h : bs ++ t.spelling = bs' ++ gap) : gap = [] := by
  obtain ⟨c, hc, hnot⟩ := (regular_iff_wellFormed.mpr ht).tight.last
  by_contra hne
  have hlast := congrArg List.getLast? h
  rw [List.getLast?_append, hc, List.getLast?_append, List.getLast?_eq_some_getLast hne] at hlast
  have hmem := List.getLast_mem hne
  obtain rfl : c = gap.getLast hne := by simpa using hlast
  exact Bytes.not_isBlank hnot (hgap _ hmem)

/-- White space behind a text changes none of its tokens. -/
theorem tokenizes_append_gap (hgap : ∀ b ∈ gap, Byte.isBlank b) :
    Tokenizes (bs ++ gap) ts ↔ Tokenizes bs ts := by
  refine ⟨fun h => ?_, fun h => ?_⟩
  · generalize hall : bs ++ gap = all at h
    induction h generalizing bs with
    | nil hall' =>
      subst hall
      exact .nil (List.forall_mem_append.mp hall').1
    | @cons gap' rest t ts hgap' ht hrest h ih =>
      -- the white space lies behind the first token
      obtain ⟨mid, rfl, rfl⟩ : ∃ mid, bs = gap' ++ t.spelling ++ mid ∧ rest = mid ++ gap := by
        rw [← List.append_assoc] at hall
        rcases List.append_eq_append_iff.mp hall with ⟨mid, hmid, hgaps⟩ | hfound
        · have hmid' : ∀ b ∈ mid, Byte.isBlank b := fun b hb =>
            hgap b (hgaps ▸ List.mem_append_left _ hb)
          obtain rfl := ht.getLast?_spelling hmid' hmid
          exact ⟨[], by simpa using hmid.symm, by simpa using hgaps.symm⟩
        · exact hfound
      rw [List.append_assoc]
      exact .cons hgap' ht hrest.of_append (ih rfl)
  · simpa using h.append (separate_of_blank hgap) (.nil hgap)

/-- **Trimming** changes none of the tokens. -/
theorem tokenizes_trim : Tokenizes (Bytes.trim bs) ts ↔ Tokenizes bs ts := by
  obtain ⟨front, back, hfront, hback, heq⟩ := Bytes.trim_spec bs
  rw [← tokenizes_append_gap hback, ← tokenizes_gap_append hfront, ← heq]

/-! ### Pieces -/

/-- A place in a text that lies inside none of its tokens. -/
def Boundary (bs : Bytes) (k : Nat) : Prop :=
  ∀ x ∈ (lex bs).tokens, k ≤ x.2 ∨ x.2 + x.1.spelling.length ≤ k

instance (bs : Bytes) (k : Nat) : Decidable (Boundary bs k) :=
  inferInstanceAs (Decidable (∀ x ∈ (lex bs).tokens, k ≤ x.2 ∨ x.2 + x.1.spelling.length ≤ k))

/-- A text is cut at a place that lies inside none of its tokens. -/
theorem Tokenizes.split {as : Bytes} (h : Tokenizes (as ++ bs) ts) {fuel o : Nat}
    (hfuel : (as ++ bs).length < fuel)
    (hcut : ∀ x ∈ (lexFrom fuel o (as ++ bs)).tokens,
      o + as.length ≤ x.2 ∨ x.2 + x.1.spelling.length ≤ o + as.length) :
    ∃ us vs fuel', ts = us ++ vs ∧ Tokenizes as us ∧ Tokenizes bs vs ∧ bs.length < fuel'
      ∧ ∀ x ∈ (lexFrom fuel' (o + as.length) bs).tokens, x ∈ (lexFrom fuel o (as ++ bs)).tokens := by
  generalize hall : as ++ bs = all at h
  induction h generalizing as fuel o with
  | nil hgap =>
    subst hall
    obtain ⟨has, hbs⟩ := List.forall_mem_append.mp hgap
    rw [List.length_append] at hfuel
    exact ⟨[], [], fuel, rfl, .nil has, .nil hbs, by omega, fun x hx => by rwa [lexFrom_gap has]⟩
  | @cons gap rest t ts hgap ht hrest h ih =>
    have hreg := regular_iff_wellFormed.mpr ht
    have hpos := hreg.spelling_pos
    obtain ⟨fuel, rfl⟩ : ∃ k, fuel = k + 1 := ⟨fuel - 1, by omega⟩
    have hlex := lexFrom_token hgap hreg hrest fuel o
    rw [hall] at hfuel hcut
    rw [hlex] at hcut ⊢
    rcases hcut (t, o + gap.length) List.mem_cons_self with hle | hle
    · -- the cut lies in the white space in front of the first token
      obtain ⟨back, rfl, rfl⟩ : ∃ back, gap = as ++ back ∧ bs = back ++ (t.spelling ++ rest) := by
        rcases List.append_eq_append_iff.mp hall with hfound | ⟨back, rfl, hbs⟩
        · exact hfound
        · rw [List.length_append] at hle
          obtain rfl : back = [] := List.length_eq_zero_iff.mp (by omega)
          exact ⟨[], by simp, by simpa using hbs.symm⟩
      obtain ⟨has, hback⟩ := List.forall_mem_append.mp hgap
      refine ⟨[], t :: ts, fuel + 1, rfl, .nil has, .cons hback ht hrest h, ?_, fun x hx => ?_⟩
      · simp only [List.length_append] at hfuel ⊢
        omega
      · rw [← hlex, List.append_assoc, lexFrom_gap has]
        exact hx
    · -- the cut lies behind the first token
      obtain ⟨as', rfl, rfl⟩ : ∃ as', as = gap ++ t.spelling ++ as' ∧ rest = as' ++ bs := by
        rw [← List.append_assoc] at hall
        rcases List.append_eq_append_iff.mp hall with ⟨mid, hmid, hbs⟩ | hfound
        · have hlength := congrArg List.length hmid
          simp only [List.length_append] at hlength hle
          obtain rfl : mid = [] := List.length_eq_zero_iff.mp (by omega)
          exact ⟨[], by simpa using hmid.symm, by simpa using hbs.symm⟩
        · exact hfound
      have hwhere : o + gap.length + t.spelling.length + as'.length
          = o + (gap ++ t.spelling ++ as').length := by
        simp only [List.length_append]
        omega
      obtain ⟨us, vs, fuel', rfl, hus, hvs, hfuel', hmem⟩ := ih
        (show (as' ++ bs).length < fuel by simp only [List.length_append] at hfuel ⊢; omega)
        (fun x hx => by rw [hwhere]; exact hcut x (List.mem_cons_of_mem _ hx)) rfl
      refine ⟨t :: us, vs, fuel', rfl, ?_, hvs, hfuel', fun x hx => ?_⟩
      · rw [List.append_assoc]
        exact .cons hgap ht hrest.of_append hus
      · rw [← hwhere] at hx
        exact List.mem_cons_of_mem _ (hmem x hx)

/-- **Cutting.** A text with tokens that is cut in places between them: every piece has tokens of its own,
and together they are those of the text. -/
theorem Tokenizes.pieces {pieces : List Bytes} (h : Tokenizes pieces.flatten ts)
    (hcut : ∀ i ≤ pieces.length, Boundary pieces.flatten (pieces.take i).flatten.length) :
    ∃ tss, List.Forall₂ Tokenizes pieces tss ∧ ts = tss.flatten := by
  -- the lexer goes on with the pieces behind a cut as it would in the whole text
  suffices ∀ fuel o, pieces.flatten.length < fuel →
      (∀ i ≤ pieces.length, ∀ x ∈ (lexFrom fuel o pieces.flatten).tokens,
        o + (pieces.take i).flatten.length ≤ x.2
          ∨ x.2 + x.1.spelling.length ≤ o + (pieces.take i).flatten.length) →
      ∃ tss, List.Forall₂ Tokenizes pieces tss ∧ ts = tss.flatten from
    this _ 0 (Nat.lt_succ_self _) fun i hi x hx => by rw [Nat.zero_add]; exact hcut i hi x hx
  clear hcut
  induction pieces generalizing ts with
  | nil => exact fun _ _ _ _ => ⟨[], .nil, (tokenizes_nil (by simp)).mp h⟩
  | cons piece pieces ih =>
    intro fuel o hfuel hcut
    rw [List.flatten_cons] at h hfuel hcut
    obtain ⟨us, vs, fuel', rfl, hus, hvs, hfuel', hmem⟩ := h.split hfuel fun x hx => by
      have := hcut 1 (Nat.succ_le_succ (Nat.zero_le _)) x hx
      rwa [List.take_succ_cons, List.take_zero, List.flatten_cons, List.flatten_nil,
        List.append_nil] at this
    obtain ⟨tss, htss, rfl⟩ := ih hvs fuel' (o + piece.length) hfuel' fun i hi x hx => by
      have := hcut (i + 1) (Nat.succ_le_succ hi) x (hmem x hx)
      rwa [List.take_succ_cons, List.flatten_cons, List.length_append, ← Nat.add_assoc] at this
    exact ⟨us :: tss, .cons hus htss, rfl⟩

end Token

namespace Expr

/-- A text is read from its tokens. -/
theorem read_of_tokens {bs bs' : Bytes} {e : Expr}
    (h : ∀ ts, Token.Tokenizes bs ts → Token.Tokenizes bs' ts) (hread : read bs = .ok e) :
    read bs' = .ok e := by
  obtain ⟨hfault, es, hphrase, rfl⟩ := phrase_of_readInput hread
  obtain ⟨hfault', htokens⟩ := Token.tokenizes_iff.mp (h _ (Token.tokenizes_iff.mpr ⟨hfault, rfl⟩))
  exact readInput_of_phrase hphrase ⟨htokens, hfault'⟩

theorem exists_of_isSome {bs : Bytes} (h : (read bs).toOption.isSome) : ∃ e, read bs = .ok e := by
  cases hread : read bs with
  | ok e => exact ⟨e, rfl⟩
  | error fault =>
    rw [hread] at h
    cases h

/-- What is read has tokens. -/
theorem tokenizes_of_read {bs : Bytes} {e : Expr} (hread : read bs = .ok e) :
    ∃ ts, Token.Tokenizes bs ts :=
  ⟨_, Token.tokenizes_iff.mpr ⟨(phrase_of_readInput hread).1, rfl⟩⟩

/-- Texts with the same tokens are read alike. -/
theorem read_congr {bs bs' : Bytes} (h : ∀ ts, Token.Tokenizes bs ts ↔ Token.Tokenizes bs' ts) :
    (read bs).toOption = (read bs').toOption := by
  cases hread : read bs with
  | ok e => rw [read_of_tokens (fun ts => (h ts).mp) hread]
  | error fault =>
    cases hread' : read bs' with
    | ok e =>
      rw [read_of_tokens (fun ts => (h ts).mpr) hread'] at hread
      cases hread
    | error fault' => rfl

end Expr

end Packrat
