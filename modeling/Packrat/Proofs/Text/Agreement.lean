import Packrat.Scan
import Mathlib.Tactic.Common

/-!
Texts that agree on a stretch.

What a text shows at an offset is a byte or its end; behind the end it shows nothing (`Text.shows`).
Two texts agree on `n` places from `o` and from `o'` on if they show the same there (`Text.Agree`).
The end counts as a place of its own: a text that ends and one that goes on are told apart by
whoever looks one place further.

Main statements: each of the ways to look at a text (`scanWhile`, `startsAt`, `find?`, `slice`) gives
the same answer on texts that agree, moved from `o` to `o'`, as long as the places it has to look at
are among those that agree.
-/

namespace Packrat

namespace Text

/-- What a text shows at an offset: a byte, or nothing more (its end); `none` behind the end. -/
def shows (t : Text) (x : Nat) : Option (Option UInt8) := if x ≤ t.size then some t[x]? else none

/-- The texts show the same at the `n` places from `o` and from `o'` on. -/
def Agree (t t' : Text) (o o' n : Nat) : Prop := ∀ k < n, t'.shows (o' + k) = t.shows (o + k)

variable {t t' : Text} {o o' n : Nat}

theorem shows_of_le {x : Nat} (h : x ≤ t.size) : t.shows x = some t[x]? := if_pos h

/-! ### Agreement -/

theorem Agree.mono (h : Agree t t' o o' n) {m : Nat} (hm : m ≤ n) : Agree t t' o o' m :=
  fun k hk => h k (by omega)

/-- Agreement from a later place on. -/
theorem Agree.drop (h : Agree t t' o o' n) (i : Nat) : Agree t t' (o + i) (o' + i) (n - i) := by
  intro k hk
  rw [Nat.add_assoc, Nat.add_assoc]
  exact h (i + k) (by omega)

/-- A place that one text has, the other one has as well, with the same byte or end. -/
theorem Agree.getElem? (h : Agree t t' o o' n) {k : Nat} (hk : k < n) (hs : o + k ≤ t.size) :
    o' + k ≤ t'.size ∧ t'[o' + k]? = t[o + k]? := by
  have e := h k hk
  rw [shows_of_le hs] at e
  unfold shows at e
  split at e
  · exact ⟨‹_›, Option.some.inj e⟩
  · cases e

/-- The end of one text is the end of the other. -/
theorem Agree.size_eq (h : Agree t t' o o' n) {k : Nat} (hk : k < n) (hs : o + k = t.size) :
    o' + k = t'.size := by
  obtain ⟨hle, e⟩ := h.getElem? hk (by omega)
  have hnone : t[o + k]? = none := by simp [hs]
  rw [hnone, Array.getElem?_eq_none_iff] at e
  omega

/-- A byte of one text is a byte of the other. -/
theorem Agree.lt_size (h : Agree t t' o o' n) {k : Nat} (hk : k < n) (hs : o + k < t.size) :
    o' + k < t'.size := by
  obtain ⟨_, e⟩ := h.getElem? hk (by omega)
  rw [Array.getElem?_eq_getElem hs] at e
  exact (Array.getElem?_eq_some_iff.1 e).1

/-- The places up to `x` agree, so the texts go equally far up to there. -/
theorem Agree.le_size (h : Agree t t' o o' n) (ho' : o' ≤ t'.size) {k : Nat} (hk : k ≤ n)
    (hs : o + k ≤ t.size) : o' + k ≤ t'.size := by
  rcases Nat.eq_zero_or_pos k with rfl | hpos
  · exact ho'
  · have := h.lt_size (k := k - 1) (by omega) (by omega)
    omega

/-! ### Runs over a class -/

theorem le_scanWhile (t : Text) (inside : UInt8 → Bool) (o : Nat) : o ≤ t.scanWhile inside o := by
  fun_induction scanWhile t inside o with
  | case1 o h hin ih => omega
  | case2 o h hin => omega
  | case3 o h => omega

theorem scanWhile_le (t : Text) (inside : UInt8 → Bool) {o : Nat} (h : o ≤ t.size) :
    t.scanWhile inside o ≤ t.size := by
  fun_induction scanWhile t inside o with
  | case1 o h' hin ih => exact ih (by omega)
  | case2 o h' hin => exact h
  | case3 o h' => exact h

/-- A run over a class ends at the corresponding place, if the texts agree up to where it ends. -/
theorem scanWhile_agree {inside : UInt8 → Bool} (ho : o ≤ t.size)
    (hn : t.scanWhile inside o < o + n) (h : Agree t t' o o' n) :
    t'.scanWhile inside o' = o' + (t.scanWhile inside o - o) := by
  fun_induction scanWhile t inside o generalizing o' n with
  | case1 o hlt hin ih =>
    have hle := le_scanWhile t inside (o + 1)
    have hlt' : o' < t'.size := h.lt_size (k := 0) (by omega) (by omega)
    have hbyte : t'[o'] = t[o] := by
      obtain ⟨_, e⟩ := h.getElem? (k := 0) (by omega) (by omega)
      simpa [hlt, hlt'] using e
    rw [scanWhile, dif_pos hlt', if_pos (by rw [hbyte]; exact hin),
      ih (by omega) (by omega) (h.drop 1)]
    omega
  | case2 o hlt hin =>
    have hlt' : o' < t'.size := h.lt_size (k := 0) (by omega) (by omega)
    have hbyte : t'[o'] = t[o] := by
      obtain ⟨_, e⟩ := h.getElem? (k := 0) (by omega) (by omega)
      simpa [hlt, hlt'] using e
    rw [scanWhile, dif_pos hlt', if_neg (by rw [hbyte]; exact hin)]
    omega
  | case3 o hge =>
    have hend : o' = t'.size := h.size_eq (k := 0) (by omega) (by omega)
    rw [scanWhile, dif_neg (by omega)]
    omega

/-- Nothing outside the class is run over. -/
theorem inside_of_lt_scanWhile {inside : UInt8 → Bool} {x : Nat} (hx : o ≤ x)
    (hlt : x < t.scanWhile inside o) : ∃ b, t[x]? = some b ∧ inside b = true := by
  fun_induction scanWhile t inside o with
  | case1 o h hin ih =>
    rcases Nat.eq_or_lt_of_le hx with rfl | hx
    · exact ⟨t[o], by simp [h], hin⟩
    · exact ih (by omega) hlt
  | case2 o h hin => omega
  | case3 o h => omega

/-- A run over a class stops at the end or at a byte outside the class. -/
theorem not_inside_scanWhile {inside : UInt8 → Bool} {b : UInt8}
    (h : t[t.scanWhile inside o]? = some b) : inside b = false := by
  fun_induction scanWhile t inside o with
  | case1 o hlt hin ih => exact ih h
  | case2 o hlt hin =>
    rw [Array.getElem?_eq_getElem hlt] at h
    obtain rfl := Option.some.inj h
    simpa using hin
  | case3 o hge =>
    rw [Array.getElem?_eq_none (by omega)] at h
    cases h

/-- A run over a class covers every stretch of it. -/
theorem le_scanWhile_of_inside {inside : UInt8 → Bool} {x : Nat} (hx : o ≤ x)
    (h : ∀ y, o ≤ y → y < x → ∃ b, t[y]? = some b ∧ inside b = true) :
    x ≤ t.scanWhile inside o := by
  fun_induction scanWhile t inside o with
  | case1 o hlt hin ih =>
    rcases Nat.eq_or_lt_of_le hx with rfl | hx
    · exact Nat.le_trans (Nat.le_succ o) (le_scanWhile t inside (o + 1))
    · exact ih hx fun y hy hyx => h y (by omega) hyx
  | case2 o hlt hin =>
    rcases Nat.eq_or_lt_of_le hx with rfl | hx
    · exact Nat.le_refl o
    · obtain ⟨b, hb, hinb⟩ := h o (Nat.le_refl o) hx
      rw [Array.getElem?_eq_getElem hlt] at hb
      obtain rfl := Option.some.inj hb
      exact absurd hinb hin
  | case3 o hge =>
    rcases Nat.eq_or_lt_of_le hx with rfl | hx
    · exact Nat.le_refl o
    · obtain ⟨b, hb, -⟩ := h o (Nat.le_refl o) hx
      rw [Array.getElem?_eq_none (by omega)] at hb
      cases hb

/-! ### Fixed texts -/

theorem startsAt_append_size {pattern : Bytes} {x : Nat} (h : t.startsAt pattern x = true)
    (hx : x ≤ t.size) : x + pattern.length ≤ t.size := by
  induction pattern generalizing x with
  | nil => simpa using hx
  | cons b bs ih =>
    simp only [startsAt, Bool.and_eq_true, beq_iff_eq] at h
    have hlt : x < t.size := (Array.getElem?_eq_some_iff.1 h.1).1
    have := ih h.2 (by omega)
    simp only [List.length_cons]
    omega

/-- Whether a fixed text stands at a place is decided by as many places as it has bytes, or by those
up to the end. -/
theorem startsAt_agree {pattern : Bytes} (ho : o ≤ t.size)
    (h : Agree t t' o o' (min pattern.length (t.size + 1 - o))) :
    t'.startsAt pattern o' = t.startsAt pattern o := by
  induction pattern generalizing o o' with
  | nil => rfl
  | cons b bs ih =>
    obtain ⟨_, e⟩ := h.getElem? (k := 0) (by simp only [List.length_cons]; omega) (by omega)
    simp only [Nat.add_zero] at e
    simp only [startsAt, e]
    by_cases hb : t[o]? = some b
    · have hlt : o < t.size := (Array.getElem?_eq_some_iff.1 hb).1
      rw [ih (by omega) ((h.drop 1).mono (by simp only [List.length_cons]; omega))]
    · have hne : (t[o]? == some b) = false := by rw [beq_eq_false_iff_ne]; exact hb
      rw [hne, Bool.false_and, Bool.false_and]

theorem findWithin_eq_some_iff {pattern : Bytes} {count x : Nat} :
    t.findWithin pattern count o = some x ↔
      o ≤ x ∧ x < o + count ∧ t.startsAt pattern x = true ∧
        ∀ y, o ≤ y → y < x → t.startsAt pattern y = false := by
  induction count generalizing o with
  | zero =>
    simp only [findWithin]
    constructor
    · intro h; cases h
    · rintro ⟨h₁, h₂, _⟩; omega
  | succ count ih =>
    rw [findWithin]
    split
    · next hs =>
      constructor
      · intro h
        obtain rfl := Option.some.inj h
        exact ⟨by omega, by omega, hs, fun y h₁ h₂ => by omega⟩
      · rintro ⟨h₁, h₂, h₃, h₄⟩
        rcases Nat.eq_or_lt_of_le h₁ with rfl | hlt
        · rfl
        · rw [h₄ o (by omega) hlt] at hs; cases hs
    · next hs =>
      rw [ih]
      constructor
      · rintro ⟨h₁, h₂, h₃, h₄⟩
        refine ⟨by omega, by omega, h₃, fun y hy hyx => ?_⟩
        rcases Nat.eq_or_lt_of_le hy with rfl | hlt
        · simpa using hs
        · exact h₄ y (by omega) hyx
      · rintro ⟨h₁, h₂, h₃, h₄⟩
        have hne : o ≠ x := by rintro rfl; exact hs h₃
        exact ⟨by omega, by omega, h₃, fun y hy hyx => h₄ y (by omega) hyx⟩

theorem findWithin_eq_none_iff {pattern : Bytes} {count : Nat} :
    t.findWithin pattern count o = none ↔
      ∀ y, o ≤ y → y < o + count → t.startsAt pattern y = false := by
  induction count generalizing o with
  | zero => simp only [findWithin, true_iff]; intro y h₁ h₂; omega
  | succ count ih =>
    rw [findWithin]
    split
    · next hs =>
      constructor
      · intro h; cases h
      · intro h; rw [h o (by omega) (by omega)] at hs; cases hs
    · next hs =>
      rw [ih]
      constructor
      · intro h y hy hyx
        rcases Nat.eq_or_lt_of_le hy with rfl | hlt
        · simpa using hs
        · exact h y (by omega) (by omega)
      · intro h y hy hyx
        exact h y (by omega) (by omega)

/-- A text is found at the corresponding place, if the texts agree up to its end. -/
theorem find?_agree_some {pattern : Bytes} {stop stop' x : Nat} (hstop : stop ≤ t.size)
    (hx : t.find? pattern o stop = some x) (h : Agree t t' o o' (x + pattern.length - o))
    (hstop' : o' + (x - o) + pattern.length ≤ stop') :
    t'.find? pattern o' stop' = some (o' + (x - o)) := by
  unfold find? at hx ⊢
  rw [findWithin_eq_some_iff] at hx ⊢
  obtain ⟨hox, hlt, hat, hbefore⟩ := hx
  have hend := startsAt_append_size hat (by omega)
  -- every earlier place is decided by places in front of the end of the match
  have key : ∀ y, o ≤ y → y ≤ x → t'.startsAt pattern (o' + (y - o)) = t.startsAt pattern y := by
    intro y hy hyx
    have hagree := (h.drop (y - o)).mono (m := min pattern.length (t.size + 1 - y)) (by omega)
    rw [show o + (y - o) = y by omega] at hagree
    exact startsAt_agree (by omega) hagree
  refine ⟨by omega, by omega, ?_, fun y hy hyx => ?_⟩
  · rw [key x hox (by omega)]; exact hat
  · have := key (o + (y - o')) (by omega) (by omega)
    rw [show o' + (o + (y - o') - o) = y by omega] at this
    rw [this]
    exact hbefore _ (by omega) (by omega)

/-- A text that is not found in a stretch is not found in the corresponding one, if the texts agree
on the whole stretch. -/
theorem find?_agree_none {pattern : Bytes} {stop : Nat} (hpos : 0 < pattern.length)
    (hstop : stop ≤ t.size) (hx : t.find? pattern o stop = none) (h : Agree t t' o o' (stop - o)) :
    t'.find? pattern o' (o' + (stop - o)) = none := by
  unfold find? at hx ⊢
  rw [findWithin_eq_none_iff] at hx ⊢
  intro y hy hlt
  have hagree := (h.drop (y - o')).mono
    (m := min pattern.length (t.size + 1 - (o + (y - o')))) (by omega)
  rw [show o' + (y - o') = y by omega] at hagree
  rw [startsAt_agree (by omega) hagree]
  exact hx _ (by omega) (by omega)

/-- The bytes of a stretch on which the texts agree. -/
theorem slice_agree {a b : Nat} (h : Agree t t' o o' n) (ha : o ≤ a) (hb : b ≤ o + n)
    (hs : b ≤ t.size) : t'.slice (o' + (a - o)) (o' + (b - o)) = t.slice a b := by
  unfold slice
  congr 1
  rcases Nat.lt_or_ge a b with hab | hab
  · have hb' : o' + (b - o) ≤ t'.size := by
      have := h.lt_size (k := b - o - 1) (by omega) (by omega)
      omega
    apply Array.ext_getElem?
    intro i
    rw [Array.getElem?_extract, Array.getElem?_extract]
    by_cases hi : i < b - a
    · rw [if_pos (by omega), if_pos (by omega)]
      obtain ⟨_, e⟩ := h.getElem? (k := a - o + i) (by omega) (by omega)
      rw [show o' + (a - o) + i = o' + (a - o + i) by omega, e,
        show o + (a - o + i) = a + i by omega]
    · rw [if_neg (by omega), if_neg (by omega)]
  · rw [Array.extract_empty_of_stop_le_start (by omega),
      Array.extract_empty_of_stop_le_start (by omega)]

end Text

end Packrat
