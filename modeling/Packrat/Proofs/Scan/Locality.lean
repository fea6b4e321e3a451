import Packrat.Scan
import Packrat.Proofs.Regex.Window
import Packrat.Proofs.Text.Agreement

/-!
A scanner has examined everything that decides its answer.

For every scanner two things are shown.  What it reports lies inside the text, and what it has
matched is part of what it has examined (`Look.Inside`).  And on a text that shows the same on the
examined stretch, taken from another place, it reports the same, moved to that place
(`Look.moved`).

The delicate scanners are those that give something up: a number looks up to three bytes behind its
end, a comment without its terminator looks up to the end of the line or of the text, and an
expression looks one place behind its window to see whether the text goes on.
-/

namespace Packrat

/-- Where a scanner got, if it starts at `o'` in place of `o`. -/
def Reach.moved (o o' : Nat) : Reach → Reach
  | .upTo stop => .upTo (o' + (stop - o))
  | .nothing => .nothing
  | .beyond => .beyond

/-- A look, taken from another place. -/
def Look.moved (l : Look) (o' : Nat) : Look :=
  ⟨l.reach.moved l.start o', o', o' + (l.stop - l.start)⟩

/-- A look from `o` on that stays inside the text and has examined what it has matched. -/
structure Look.Inside (t : Text) (o : Nat) (l : Look) : Prop where
  start : l.start = o
  start_le : o ≤ l.stop
  stop_le : l.stop ≤ t.size + 1
  ne_beyond : l.reach ≠ .beyond
  upTo : ∀ {stop}, l.reach = .upTo stop → o ≤ stop ∧ stop ≤ t.size ∧ stop ≤ l.stop

namespace Scan

variable {t t' : Text} {o o' : Nat}

/-- The texts agree on `[o, stop)`, as far as the text and its end go. -/
def AgreeUpTo (t t' : Text) (o o' stop : Nat) : Prop :=
  t.Agree t' o o' (min stop (t.size + 1) - o)

namespace AgreeUpTo

variable {stop : Nat}

/-- Agreement from a later place on. -/
theorem drop (h : AgreeUpTo t t' o o' stop) {x : Nat} (hx : o ≤ x) :
    AgreeUpTo t t' x (o' + (x - o)) stop := by
  have := (Text.Agree.drop h (x - o)).mono (m := min stop (t.size + 1) - x) (by omega)
  rwa [show o + (x - o) = x by omega] at this

/-- Every place in front of `stop` shows the same, also those behind the end. -/
theorem getElem? (h : AgreeUpTo t t' o o' stop) (ho : o ≤ t.size) {x : Nat} (hx : o ≤ x)
    (hlt : x < stop) : t'[o' + (x - o)]? = t[x]? := by
  by_cases hs : x ≤ t.size
  · have := (Text.Agree.getElem? h (k := x - o) (by omega) (by omega)).2
    rwa [show o + (x - o) = x by omega] at this
  · -- the end itself was examined, so the other text ends there as well
    have hend := Text.Agree.size_eq h (k := t.size - o) (by omega) (by omega)
    rw [Array.getElem?_eq_none (by omega), Array.getElem?_eq_none (by omega)]

theorem has_eq (h : AgreeUpTo t t' o o' stop) (ho : o ≤ t.size) {x : Nat} (hx : o ≤ x)
    (hlt : x < stop) (inside : UInt8 → Bool) : has t' inside (o' + (x - o)) = has t inside x := by
  unfold has
  rw [h.getElem? ho hx hlt]

theorem scanWhile_eq (h : AgreeUpTo t t' o o' stop) {x : Nat} (hx : o ≤ x) (hs : x ≤ t.size)
    (inside : UInt8 → Bool) (hlt : t.scanWhile inside x < stop) :
    t'.scanWhile inside (o' + (x - o)) = o' + (t.scanWhile inside x - o) := by
  have hle := Text.le_scanWhile t inside x
  have hsize := Text.scanWhile_le t inside hs
  rw [Text.scanWhile_agree hs (n := min stop (t.size + 1) - x) (by omega) (h.drop hx)]
  omega

/-- A stretch is cut at the end of the text at the corresponding place. -/
theorem min_eq (h : AgreeUpTo t t' o o' stop) (ho : o ≤ t.size) (ho' : o' ≤ t'.size)
    (hstop : o ≤ stop) :
    min (o' + (stop - o)) (t'.size + 1) = o' + (min stop (t.size + 1) - o) := by
  by_cases hs : stop ≤ t.size + 1
  · by_cases hpos : stop = o
    · omega
    · have := (Text.Agree.getElem? h (k := stop - o - 1) (by omega) (by omega)).1
      omega
  · have hend := Text.Agree.size_eq h (k := t.size - o) (by omega) (by omega)
    omega

/-- A look of the same reach is the same look. -/
theorem look_eq (h : AgreeUpTo t t' o o' stop) (ho : o ≤ t.size) (ho' : o' ≤ t'.size)
    (hstop : o ≤ stop) (reach : Reach) {reach' : Reach} (hreach : reach' = reach.moved o o') :
    look t' o' (o' + (stop - o)) reach' = (look t o stop reach).moved o' := by
  subst hreach
  simp only [look, Look.moved, h.min_eq ho ho' hstop]

end AgreeUpTo

/-- The places of a look agree if those in front of its uncut end do. -/
theorem agreeUpTo_of_look {stop : Nat} {reach : Reach}
    (h : t.Agree t' o o' ((look t o stop reach).stop - o)) : AgreeUpTo t t' o o' stop := h

theorem look_inside {stop : Nat} {reach : Reach} (ho : o ≤ t.size) (hstop : o ≤ stop)
    (hne : reach ≠ .beyond)
    (hupTo : ∀ {s}, reach = .upTo s → o ≤ s ∧ s ≤ t.size ∧ s ≤ stop) :
    (look t o stop reach).Inside t o where
  start := rfl
  start_le := by simp only [look]; omega
  stop_le := by simp only [look]; omega
  ne_beyond := hne
  upTo := by
    intro s hs
    obtain ⟨h₁, h₂, h₃⟩ := hupTo hs
    refine ⟨h₁, h₂, ?_⟩
    simp only [look]
    omega

/-! ### White space, fixed texts and single bytes -/

theorem blanks_inside (ho : o ≤ t.size) : (blanks t o).Inside t o := by
  have h₁ := Text.le_scanWhile t Byte.isBlank o
  have h₂ := Text.scanWhile_le t Byte.isBlank ho
  refine look_inside ho (by omega) (by simp) ?_
  intro s hs
  obtain rfl := Reach.upTo.inj hs
  exact ⟨h₁, h₂, by omega⟩

theorem blanks_moved (ho : o ≤ t.size) (ho' : o' ≤ t'.size)
    (h : t.Agree t' o o' ((blanks t o).stop - o)) : blanks t' o' = (blanks t o).moved o' := by
  have hagree := agreeUpTo_of_look h
  have h₁ := Text.le_scanWhile t Byte.isBlank o
  have hscan := hagree.scanWhile_eq (Nat.le_refl o) ho Byte.isBlank (by omega)
  rw [show o' + (o - o) = o' by omega] at hscan
  have := hagree.look_eq ho ho' (by omega) (.upTo (t.scanWhile Byte.isBlank o)) rfl
  unfold blanks
  rw [hscan, ← this]
  simp only [Reach.moved]
  congr 1
  omega

theorem has_eq_true_iff {inside : UInt8 → Bool} {x : Nat} :
    has t inside x = true ↔ ∃ b, t[x]? = some b ∧ inside b = true := by
  unfold has
  simp [Option.any_eq_true]

theorem lt_size_of_has {inside : UInt8 → Bool} {x : Nat} (h : has t inside x = true) :
    x < t.size := by
  obtain ⟨b, hb, -⟩ := has_eq_true_iff.1 h
  exact (Array.getElem?_eq_some_iff.1 hb).1

theorem byte_inside (ho : o ≤ t.size) (inside : UInt8 → Bool) : (byte t inside o).Inside t o := by
  refine look_inside ho (by omega) (by split <;> simp) ?_
  intro s hs
  split at hs
  · next hb =>
    have := lt_size_of_has hb
    obtain rfl := Reach.upTo.inj hs
    omega
  · cases hs

theorem byte_moved (ho : o ≤ t.size) (ho' : o' ≤ t'.size) {inside : UInt8 → Bool}
    (h : t.Agree t' o o' ((byte t inside o).stop - o)) :
    byte t' inside o' = (byte t inside o).moved o' := by
  have hagree := agreeUpTo_of_look h
  have hhas := hagree.has_eq ho (Nat.le_refl o) (by omega) inside
  rw [show o' + (o - o) = o' by omega] at hhas
  unfold byte
  rw [hhas]
  have hlook := hagree.look_eq ho ho' (by omega)
    (if has t inside o then .upTo (o + 1) else .nothing) rfl
  rw [← hlook, show o + 1 - o = 1 by omega]
  congr 1
  split <;> simp [Reach.moved]

theorem literal_inside (ho : o ≤ t.size) (text : Bytes) (isWord : Bool) :
    (literal t text isWord o).Inside t o := by
  unfold literal
  simp only [if_pos ho]
  refine look_inside ho (by split <;> omega) (by split <;> simp) ?_
  intro s hs
  split at hs
  · next hfound =>
    rw [Bool.and_eq_true] at hfound
    have := Text.startsAt_append_size hfound.1 ho
    obtain rfl := Reach.upTo.inj hs
    refine ⟨by omega, this, ?_⟩
    split <;> omega
  · cases hs

theorem literal_moved (ho : o ≤ t.size) (ho' : o' ≤ t'.size) {text : Bytes} {isWord : Bool}
    (h : t.Agree t' o o' ((literal t text isWord o).stop - o)) :
    literal t' text isWord o' = (literal t text isWord o).moved o' := by
  have hagree := agreeUpTo_of_look h
  have hstarts : t'.startsAt text o' = t.startsAt text o := by
    refine Text.startsAt_agree ho (Text.Agree.mono hagree ?_)
    split <;> omega
  -- the byte behind a word is among the examined places
  have hword : (isWord && has t' Byte.isWord (o' + text.length))
      = (isWord && has t Byte.isWord (o + text.length)) := by
    cases isWord with
    | false => rfl
    | true =>
      have := hagree.has_eq ho (x := o + text.length) (by omega) (by simp) Byte.isWord
      rw [show o + text.length - o = text.length by omega] at this
      simp only [this]
  unfold literal
  simp only [if_pos ho, if_pos ho', hstarts, hword]
  have hlook := hagree.look_eq ho ho' (by split <;> omega)
    (if (t.startsAt text o && !(isWord && has t Byte.isWord (o + text.length))) = true
      then .upTo (o + text.length) else .nothing) rfl
  rw [← hlook]
  congr 1
  · split <;> omega
  · split <;> simp [Reach.moved]

/-! ### Tokens -/

theorem le_fractionEnd (t : Text) (x : Nat) : x ≤ fractionEnd t x := by
  unfold fractionEnd
  split
  · have := Text.le_scanWhile t Byte.isDigit (x + 1)
    omega
  · exact Nat.le_refl x

theorem le_exponentEnd (t : Text) (x : Nat) : x ≤ exponentEnd t x := by
  unfold exponentEnd
  split
  · dsimp only
    generalize hd : (if has t (fun b => b == Byte.plus || b == Byte.minus) (x + 1) = true then x + 2
      else x + 1) = d
    have hdle : x ≤ d := by split at hd <;> omega
    split
    · exact Nat.le_trans hdle (Text.le_scanWhile t Byte.isDigit d)
    · exact Nat.le_refl x
  · exact Nat.le_refl x

theorem fractionEnd_le {x : Nat} (hx : x ≤ t.size) : fractionEnd t x ≤ t.size := by
  unfold fractionEnd
  split
  · next h =>
    rw [Bool.and_eq_true] at h
    have := lt_size_of_has h.2
    exact Text.scanWhile_le t Byte.isDigit (by omega)
  · exact hx

theorem exponentEnd_le {x : Nat} (hx : x ≤ t.size) : exponentEnd t x ≤ t.size := by
  unfold exponentEnd
  split
  · dsimp only
    generalize (if has t (fun b => b == Byte.plus || b == Byte.minus) (x + 1) = true then x + 2
      else x + 1) = d
    split
    · next h => exact Text.scanWhile_le t Byte.isDigit (Nat.le_of_lt (lt_size_of_has h))
    · exact hx
  · exact hx

theorem AgreeUpTo.fractionEnd_eq {stop : Nat} (h : AgreeUpTo t t' o o' stop) (ho : o ≤ t.size)
    {x : Nat} (hx : o ≤ x) (hlt : fractionEnd t x + 1 < stop) :
    fractionEnd t' (o' + (x - o)) = o' + (fractionEnd t x - o) := by
  have hle := le_fractionEnd t x
  have hdot := h.has_eq ho hx (by omega) (· == Byte.dot)
  have hdigit := h.has_eq ho (x := x + 1) (by omega) (by omega) Byte.isDigit
  rw [show o' + (x + 1 - o) = o' + (x - o) + 1 by omega] at hdigit
  unfold fractionEnd at hlt ⊢
  rw [hdot, hdigit]
  split
  · next hfrac =>
    rw [if_pos hfrac] at hlt
    rw [Bool.and_eq_true] at hfrac
    have hs := lt_size_of_has hfrac.2
    have := h.scanWhile_eq (x := x + 1) (by omega) (by omega) Byte.isDigit (by omega)
    rwa [show o' + (x + 1 - o) = o' + (x - o) + 1 by omega] at this
  · rfl

theorem AgreeUpTo.exponentEnd_eq {stop : Nat} (h : AgreeUpTo t t' o o' stop) (ho : o ≤ t.size)
    {x : Nat} (hx : o ≤ x) (hlt : exponentEnd t x + 2 < stop) :
    exponentEnd t' (o' + (x - o)) = o' + (exponentEnd t x - o) := by
  have hle := le_exponentEnd t x
  have hmark := h.has_eq ho hx (by omega) (fun b => b == 'e'.toUInt8 || b == 'E'.toUInt8)
  have hsign := h.has_eq ho (x := x + 1) (by omega) (by omega)
    (fun b => b == Byte.plus || b == Byte.minus)
  rw [show o' + (x + 1 - o) = o' + (x - o) + 1 by omega] at hsign
  unfold exponentEnd at hlt ⊢
  rw [hmark, hsign]
  split
  · next hexp =>
    rw [if_pos hexp] at hlt
    dsimp only at hlt ⊢
    -- the digits begin one or two places behind the mark
    generalize hd : (if has t (fun b => b == Byte.plus || b == Byte.minus) (x + 1) = true then x + 2
      else x + 1) = d at hlt ⊢
    have hdle : x < d ∧ d ≤ x + 2 := by split at hd <;> omega
    have hd' : (if has t (fun b => b == Byte.plus || b == Byte.minus) (x + 1) = true
        then o' + (x - o) + 2 else o' + (x - o) + 1) = o' + (d - o) := by
      split at hd
      · rw [if_pos ‹_›]; omega
      · rw [if_neg ‹_›]; omega
    rw [hd']
    have hdigit : has t' Byte.isDigit (o' + (d - o)) = has t Byte.isDigit d :=
      h.has_eq ho (by omega) (by
        split at hlt
        · have := Text.le_scanWhile t Byte.isDigit d
          omega
        · omega) Byte.isDigit
    rw [hdigit]
    split
    · next hdig =>
      rw [if_pos hdig] at hlt
      have hs := lt_size_of_has hdig
      exact h.scanWhile_eq (by omega) (by omega) Byte.isDigit (by omega)
    · rfl
  · rfl

theorem number_inside (ho : o ≤ t.size) : (number t o).Inside t o := by
  unfold number
  dsimp only
  split
  · exact look_inside ho (by omega) (by simp) (by intro s hs; cases hs)
  · have h₁ := Text.le_scanWhile t Byte.isDigit o
    have h₂ := le_fractionEnd t (t.scanWhile Byte.isDigit o)
    have h₃ := le_exponentEnd t (fractionEnd t (t.scanWhile Byte.isDigit o))
    have h₄ := exponentEnd_le (fractionEnd_le (Text.scanWhile_le t Byte.isDigit ho))
    refine look_inside ho (by omega) (by simp) ?_
    intro s hs
    obtain rfl := Reach.upTo.inj hs
    exact ⟨by omega, h₄, by omega⟩

theorem number_moved (ho : o ≤ t.size) (ho' : o' ≤ t'.size)
    (h : t.Agree t' o o' ((number t o).stop - o)) : number t' o' = (number t o).moved o' := by
  have hle := Text.le_scanWhile t Byte.isDigit o
  unfold number at h ⊢
  dsimp only at h ⊢
  generalize hwhole : t.scanWhile Byte.isDigit o = whole at h hle ⊢
  by_cases hw : (whole == o) = true
  · rw [if_pos hw] at h
    rw [beq_iff_eq] at hw
    have hagree := agreeUpTo_of_look h
    have hscan := hagree.scanWhile_eq (Nat.le_refl o) ho Byte.isDigit (by omega)
    rw [show o' + (o - o) = o' by omega, hwhole] at hscan
    rw [hscan, if_pos (by simp [hw]), if_pos (by simp [hw]),
      ← hagree.look_eq ho ho' (by omega) .nothing rfl]
    congr 1
    omega
  · rw [if_neg hw] at h
    rw [beq_iff_eq] at hw
    have hagree := agreeUpTo_of_look h
    have hfrac := le_fractionEnd t whole
    have hexp := le_exponentEnd t (fractionEnd t whole)
    have hscan := hagree.scanWhile_eq (Nat.le_refl o) ho Byte.isDigit (by omega)
    rw [show o' + (o - o) = o' by omega, hwhole] at hscan
    have hfrac' := hagree.fractionEnd_eq ho hle (by omega)
    have hexp' := hagree.exponentEnd_eq ho (x := fractionEnd t whole) (by omega) (by omega)
    rw [hscan, if_neg (by simp; omega), if_neg (by simpa using hw), hfrac', hexp',
      ← hagree.look_eq ho ho' (by omega) (.upTo (exponentEnd t (fractionEnd t whole))) rfl]
    congr 1
    omega

theorem closingQuote_mem {quote : UInt8} {x q : Nat} (h : closingQuote t quote x = some q) :
    x ≤ q ∧ q < t.size := by
  fun_induction closingQuote t quote x with
  | case1 x hx hb ih => have := ih h; omega
  | case2 x hx hb hq => obtain rfl := Option.some.inj h; omega
  | case3 x hx hb hq ih => have := ih h; omega
  | case4 x hx => cases h

/-- A closing quote is found at the corresponding place, if the texts agree up to it. -/
theorem AgreeUpTo.closingQuote_some {stop : Nat} (h : AgreeUpTo t t' o o' stop) (ho : o ≤ t.size)
    {quote : UInt8} (hquote : quote ≠ Byte.backslash) {x q : Nat} (hx : o ≤ x)
    (hq : closingQuote t quote x = some q) (hlt : q < stop) :
    closingQuote t' quote (o' + (x - o)) = some (o' + (q - o)) := by
  have hmem := closingQuote_mem hq
  fun_induction closingQuote t quote x with
  | case1 x hs hb ih =>
    have hmem' := closingQuote_mem hq
    rw [Bool.and_eq_true, decide_eq_true_eq, beq_iff_eq] at hb
    have hthis := h.getElem? ho hx (by omega)
    have hnext := h.getElem? ho (x := x + 1) (by omega) (by omega)
    rw [Array.getElem?_eq_getElem hs, Array.getElem?_eq_some_iff] at hthis
    obtain ⟨hs', hbyte⟩ := hthis
    rw [Array.getElem?_eq_getElem hb.2, Array.getElem?_eq_some_iff] at hnext
    obtain ⟨hs₂, -⟩ := hnext
    have hrec := ih (by omega) hq (by omega)
    rw [show o' + (x + 2 - o) = o' + (x - o) + 2 by omega] at hrec
    rw [closingQuote, dif_pos hs', if_pos ?_, hrec]
    rw [Bool.and_eq_true, decide_eq_true_eq, beq_iff_eq, hbyte]
    exact ⟨hb.1, by omega⟩
  | case2 x hs hb hq' =>
    obtain rfl := Option.some.inj hq
    have hthis := h.getElem? ho hx (by omega)
    rw [Array.getElem?_eq_getElem hs, Array.getElem?_eq_some_iff] at hthis
    obtain ⟨hs', hbyte⟩ := hthis
    rw [beq_iff_eq] at hq'
    rw [closingQuote, dif_pos hs', if_neg ?_, if_pos (by rw [hbyte]; simpa using hq')]
    rw [Bool.and_eq_true, beq_iff_eq, hbyte, hq']
    exact fun hc => hquote hc.1
  | case3 x hs hb hq' ih =>
    have hmem' := closingQuote_mem hq
    have hthis := h.getElem? ho hx (by omega)
    rw [Array.getElem?_eq_getElem hs, Array.getElem?_eq_some_iff] at hthis
    obtain ⟨hs', hbyte⟩ := hthis
    have hrec := ih (by omega) hq (by omega)
    rw [show o' + (x + 1 - o) = o' + (x - o) + 1 by omega] at hrec
    rw [closingQuote, dif_pos hs', if_neg ?_, if_neg (by rw [hbyte]; exact hq'), hrec]
    -- a backslash here would be the last byte of the text, and nothing would be found behind it
    rw [Bool.and_eq_true, decide_eq_true_eq, beq_iff_eq, hbyte]
    rw [Bool.and_eq_true, decide_eq_true_eq, beq_iff_eq] at hb
    exact fun hc => hb ⟨hc.1, by omega⟩
  | case4 x hs => cases hq

/-- No closing quote is found, if the texts agree up to the end. -/
theorem AgreeUpTo.closingQuote_none (h : AgreeUpTo t t' o o' (t.size + 1)) (ho : o ≤ t.size)
    {quote : UInt8} {x : Nat} (hx : o ≤ x) (hq : closingQuote t quote x = none) :
    closingQuote t' quote (o' + (x - o)) = none := by
  have hend := Text.Agree.size_eq h (k := t.size - o) (by omega) (by omega)
  fun_induction closingQuote t quote x with
  | case1 x hs hb ih =>
    have hthis := h.getElem? ho hx (by omega)
    rw [Array.getElem?_eq_getElem hs, Array.getElem?_eq_some_iff] at hthis
    obtain ⟨hs', hbyte⟩ := hthis
    have hrec := ih (by omega) hq
    rw [show o' + (x + 2 - o) = o' + (x - o) + 2 by omega] at hrec
    rw [Bool.and_eq_true, decide_eq_true_eq, beq_iff_eq] at hb
    rw [closingQuote, dif_pos hs', if_pos ?_, hrec]
    rw [Bool.and_eq_true, decide_eq_true_eq, beq_iff_eq, hbyte]
    exact ⟨hb.1, by omega⟩
  | case2 x hs hb hq' => cases hq
  | case3 x hs hb hq' ih =>
    have hthis := h.getElem? ho hx (by omega)
    rw [Array.getElem?_eq_getElem hs, Array.getElem?_eq_some_iff] at hthis
    obtain ⟨hs', hbyte⟩ := hthis
    have hrec := ih (by omega) hq
    rw [show o' + (x + 1 - o) = o' + (x - o) + 1 by omega] at hrec
    rw [Bool.and_eq_true, decide_eq_true_eq, beq_iff_eq] at hb
    rw [closingQuote, dif_pos hs', if_neg ?_, if_neg (by rw [hbyte]; exact hq'), hrec]
    rw [Bool.and_eq_true, decide_eq_true_eq, beq_iff_eq, hbyte]
    exact fun hc => hb ⟨hc.1, by omega⟩
  | case4 x hs =>
    rw [closingQuote, dif_neg (by omega)]

theorem isQuote_ne_backslash {quote : UInt8}
    (h : (quote == Byte.doubleQuote || quote == Byte.quote) = true) : quote ≠ Byte.backslash := by
  rintro rfl
  revert h
  decide

theorem quoted_inside (ho : o ≤ t.size) : (quoted t o).Inside t o := by
  unfold quoted
  split
  · exact look_inside ho (by omega) (by simp) (by intro s hs; cases hs)
  · split
    · split
      · next q hq =>
        have := closingQuote_mem hq
        refine look_inside ho (by omega) (by simp) ?_
        intro s hs
        obtain rfl := Reach.upTo.inj hs
        omega
      · exact look_inside ho (by omega) (by simp) (by intro s hs; cases hs)
    · exact look_inside ho (by omega) (by simp) (by intro s hs; cases hs)

theorem quoted_moved (ho : o ≤ t.size) (ho' : o' ≤ t'.size)
    (h : t.Agree t' o o' ((quoted t o).stop - o)) : quoted t' o' = (quoted t o).moved o' := by
  -- the byte at the place itself is examined in every case
  have hfirst : t'[o']? = t[o]? := by
    have hpos : o < (quoted t o).stop := by
      unfold quoted
      split
      · simp only [look]; omega
      · split
        · split
          · next q hq => have := closingQuote_mem hq; simp only [look]; omega
          · simp only [look]; omega
        · simp only [look]; omega
    have := (h.getElem? (k := 0) (by omega) (by omega)).2
    simpa using this
  unfold quoted at h ⊢
  rw [hfirst]
  cases hb : t[o]? with
  | none =>
    rw [hb] at h
    dsimp only at h ⊢
    have hagree := agreeUpTo_of_look h
    rw [← hagree.look_eq ho ho' (by omega) .nothing rfl]
    congr 1
    omega
  | some quote =>
    rw [hb] at h
    dsimp only at h ⊢
    by_cases hquote : (quote == Byte.doubleQuote || quote == Byte.quote) = true
    · rw [if_pos hquote] at h
      rw [if_pos hquote, if_pos hquote]
      cases hq : closingQuote t quote (o + 1) with
      | some q =>
        rw [hq] at h
        have hagree := agreeUpTo_of_look h
        have hmem := closingQuote_mem hq
        have hfound := hagree.closingQuote_some ho (isQuote_ne_backslash hquote) (x := o + 1)
          (by omega) hq (by omega)
        rw [show o' + (o + 1 - o) = o' + 1 by omega] at hfound
        rw [hfound]
        dsimp only
        rw [← hagree.look_eq ho ho' (by omega) (.upTo (q + 1)) rfl]
        simp only [Reach.moved]
        rw [show o' + (q - o) + 1 = o' + (q + 1 - o) by omega]
      | none =>
        rw [hq] at h
        have hagree : AgreeUpTo t t' o o' (t.size + 1) := agreeUpTo_of_look h
        have hend := Text.Agree.size_eq hagree (k := t.size - o) (by omega) (by omega)
        have hfound := hagree.closingQuote_none ho (x := o + 1) (by omega) hq
        rw [show o' + (o + 1 - o) = o' + 1 by omega] at hfound
        rw [hfound]
        dsimp only
        rw [← hagree.look_eq ho ho' (by omega) .nothing rfl]
        congr 1
        omega
    · rw [if_neg hquote] at h
      rw [if_neg hquote, if_neg hquote]
      have hagree := agreeUpTo_of_look h
      rw [← hagree.look_eq ho ho' (by omega) .nothing rfl]
      congr 1
      omega

theorem identifier_inside (ho : o ≤ t.size) : (identifier t o).Inside t o := by
  unfold identifier
  split
  · next hhas =>
    have hlt := lt_size_of_has hhas
    have h₁ := Text.le_scanWhile t Byte.isWord (o + 1)
    have h₂ := Text.scanWhile_le t Byte.isWord (o := o + 1) (by omega)
    refine look_inside ho (by omega) (by simp) ?_
    intro s hs
    obtain rfl := Reach.upTo.inj hs
    omega
  · exact look_inside ho (by omega) (by simp) (by intro s hs; cases hs)

theorem identifier_moved (ho : o ≤ t.size) (ho' : o' ≤ t'.size)
    (h : t.Agree t' o o' ((identifier t o).stop - o)) :
    identifier t' o' = (identifier t o).moved o' := by
  unfold identifier at h ⊢
  dsimp only at h ⊢
  have h₁ := Text.le_scanWhile t Byte.isWord (o + 1)
  by_cases hhas : has t (fun b => Byte.isAlpha b || b == Byte.underscore) o = true
  · rw [if_pos hhas] at h
    have hagree := agreeUpTo_of_look h
    have hhas' := hagree.has_eq ho (Nat.le_refl o) (by omega)
      (fun b => Byte.isAlpha b || b == Byte.underscore)
    rw [show o' + (o - o) = o' by omega] at hhas'
    have hlt := lt_size_of_has hhas
    have hscan := hagree.scanWhile_eq (x := o + 1) (by omega) (by omega) Byte.isWord (by omega)
    rw [show o' + (o + 1 - o) = o' + 1 by omega] at hscan
    rw [hhas', if_pos hhas, if_pos hhas, hscan,
      ← hagree.look_eq ho ho' (by omega) (.upTo (t.scanWhile Byte.isWord (o + 1))) rfl]
    congr 1
    omega
  · rw [if_neg hhas] at h
    have hagree := agreeUpTo_of_look h
    have hhas' := hagree.has_eq ho (Nat.le_refl o) (by omega)
      (fun b => Byte.isAlpha b || b == Byte.underscore)
    rw [show o' + (o - o) = o' by omega] at hhas'
    rw [hhas', if_neg hhas, if_neg hhas, ← hagree.look_eq ho ho' (by omega) .nothing rfl]
    congr 1
    omega

theorem newline_inside (ho : o ≤ t.size) : (newline t o).Inside t o := by
  refine look_inside ho (by omega) (by split <;> [simp; split <;> simp]) ?_
  intro s hs
  split at hs
  · next hn =>
    have := lt_size_of_has hn
    obtain rfl := Reach.upTo.inj hs
    omega
  · split at hs
    · next hn =>
      rw [Bool.and_eq_true] at hn
      have := lt_size_of_has hn.2
      obtain rfl := Reach.upTo.inj hs
      omega
    · cases hs

theorem newline_moved (ho : o ≤ t.size) (ho' : o' ≤ t'.size)
    (h : t.Agree t' o o' ((newline t o).stop - o)) : newline t' o' = (newline t o).moved o' := by
  have hagree := agreeUpTo_of_look h
  have hhere := hagree.has_eq ho (Nat.le_refl o) (by omega)
  rw [show o' + (o - o) = o' by omega] at hhere
  have hnext := hagree.has_eq ho (x := o + 1) (by omega) (by omega) (· == Byte.newline)
  rw [show o' + (o + 1 - o) = o' + 1 by omega] at hnext
  unfold newline
  rw [hhere, hhere, hnext]
  have hlook := hagree.look_eq ho ho' (by omega)
    (if has t (· == Byte.newline) o then .upTo (o + 1)
      else if has t (· == Byte.cr) o && has t (· == Byte.newline) (o + 1) then .upTo (o + 2)
      else .nothing) rfl
  rw [← hlook, show o + 2 - o = 2 by omega]
  congr 1
  split
  · simp [Reach.moved]
  · split <;> simp [Reach.moved]

end Scan

end Packrat
