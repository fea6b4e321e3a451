import Packrat.Text.Edit
import Packrat.Proofs.Text.Agreement

/-!
What an edit leaves alone.

Offsets are words, but nothing wraps around while texts are short enough to have an offset for every
byte and a sign to spare (`Text.maxSize`).  For an edit inside such a text (`Edit.Fits`) the end and
the change of length are what they are in plain arithmetic.  In front of the edit the text shows what
it has shown; behind it, it shows the same at the moved place (`Edit.shows_behind`).

Several edits are applied one after the other (`Text.after`), and offsets follow them
(`Offset.after`).
-/

namespace Packrat

/-! ### Offsets that do not wrap -/

namespace Offset

theorem wrap_eq {n : Int} (h : 0 ≤ n) (hlt : n < count) : (wrap n : Int) = n := by
  unfold wrap
  rw [Int.emod_eq_of_lt h hlt]
  omega

theorem move_eq {o : Nat} {delta : Int} (h : 0 ≤ o + delta) (hlt : o + delta < count) :
    (move o delta : Int) = o + delta :=
  wrap_eq h hlt

theorem isBehind_iff {o editStart editEnd : Nat} :
    isBehind o editStart editEnd = true ↔ editStart < o ∧ editEnd ≤ o := by
  simp [isBehind]

theorem shift_of_not_behind {o editStart editEnd : Nat} {delta : Int}
    (h : ¬(editStart < o ∧ editEnd ≤ o)) : shift o editStart editEnd delta = o := by
  unfold shift
  rw [if_neg (by rwa [isBehind_iff])]

theorem shift_of_behind {o editStart editEnd : Nat} {delta : Int}
    (h : editStart < o ∧ editEnd ≤ o) : shift o editStart editEnd delta = move o delta := by
  unfold shift
  rw [if_pos (by rwa [isBehind_iff])]

end Offset

/-- The longest text: half of the offsets, so that differences of two of them have a sign. -/
def Text.maxSize : Nat := 0x8000000000000000

namespace Edit

variable {e : Edit} {t : Text}

/-- The edit replaces a stretch of the text, which is short enough before and after. -/
structure Fits (e : Edit) (t : Text) : Prop where
  le_size : e.offset + e.oldLength ≤ t.size
  size_lt : t.size < Text.maxSize
  size_lt' : (e.applyTo t).size < Text.maxSize

theorem size_applyTo (h : e.offset + e.oldLength ≤ t.size) :
    (e.applyTo t).size = t.size - e.oldLength + e.newLength := by
  simp only [applyTo, Text.splice, newLength, Array.size_append, Array.size_extract,
    List.size_toArray]
  omega

namespace Fits

theorem size_eq (h : e.Fits t) : (e.applyTo t).size = t.size - e.oldLength + e.newLength :=
  size_applyTo h.le_size

theorem offset_le_size (h : e.Fits t) : e.offset ≤ (e.applyTo t).size := by
  have := h.le_size
  rw [h.size_eq]
  omega

theorem stop_eq (h : e.Fits t) : e.stop = e.offset + e.oldLength := by
  have h₁ := h.le_size
  have h₂ := h.size_lt
  have := Offset.wrap_eq (n := ((e.offset + e.oldLength : Nat) : Int)) (by omega)
    (by simp only [Offset.count, Text.maxSize] at *; omega)
  unfold stop
  omega

theorem delta_eq (h : e.Fits t) : e.delta = (e.newLength : Int) - e.oldLength := by
  have h₁ := h.le_size
  have h₂ := h.size_lt
  have h₃ := h.size_lt'
  rw [h.size_eq] at h₃
  unfold delta
  simp only [Text.maxSize] at h₂ h₃
  exact Int.bmod_eq_of_le (by simp only [Offset.count]; omega) (by simp only [Offset.count]; omega)

/-- An offset that lies behind the edit moves by the change of length, if it is not too far behind the
text. -/
theorem shift_behind_of_lt (h : e.Fits t) {x : Nat} (hx : x < t.size + Text.maxSize)
    (hlt : e.offset < x) (hle : e.offset + e.oldLength ≤ x) :
    Offset.shift x e.offset e.stop e.delta = x - e.oldLength + e.newLength := by
  have h₁ := h.le_size
  have h₂ := h.size_lt
  have h₃ := h.size_lt'
  rw [h.size_eq] at h₃
  simp only [Text.maxSize] at h₂ h₃ hx
  rw [Offset.shift_of_behind ⟨hlt, by rw [h.stop_eq]; exact hle⟩]
  have := @Offset.move_eq x e.delta (by rw [h.delta_eq]; omega)
    (by rw [h.delta_eq]; simp only [Offset.count]; omega)
  rw [h.delta_eq] at this
  rw [h.delta_eq]
  omega

theorem shift_behind (h : e.Fits t) {x : Nat} (hx : x ≤ t.size + 1) (hlt : e.offset < x)
    (hle : e.offset + e.oldLength ≤ x) :
    Offset.shift x e.offset e.stop e.delta = x - e.oldLength + e.newLength :=
  h.shift_behind_of_lt (by simp only [Text.maxSize]; omega) hlt hle

theorem shift_before (h : e.Fits t) {x : Nat}
    (hx : x ≤ e.offset ∨ x < e.offset + e.oldLength) :
    Offset.shift x e.offset e.stop e.delta = x :=
  Offset.shift_of_not_behind (by rw [h.stop_eq]; omega)

/-- Offsets stay far from the last word, also those that an edit has left behind the end. -/
theorem shift_lt (h : e.Fits t) {x : Nat} (hx : x < t.size + Text.maxSize) :
    Offset.shift x e.offset e.stop e.delta < (e.applyTo t).size + Text.maxSize := by
  have h₁ := h.le_size
  have h₂ := h.size_lt
  rw [h.size_eq]
  by_cases hb : e.offset < x ∧ e.offset + e.oldLength ≤ x
  · rw [h.shift_behind_of_lt hx hb.1 hb.2]
    omega
  · rw [h.shift_before (by omega)]
    omega

end Fits

/-- An offset is not inside the stretch that an edit replaces. -/
def Spares (e : Edit) (x : Nat) : Prop :=
  x ≤ e.offset ∨ (e.offset < x ∧ e.offset + e.oldLength ≤ x)

namespace Fits

variable {x y : Nat}

/-- Offsets outside of the edit stay in order with those behind them. -/
theorem shift_mono (h : e.Fits t) (hx : e.Spares x) (hy : y < t.size + Text.maxSize) (hxy : x ≤ y) :
    Offset.shift x e.offset e.stop e.delta ≤ Offset.shift y e.offset e.stop e.delta := by
  by_cases hb : e.offset < y ∧ e.offset + e.oldLength ≤ y
  · rw [h.shift_behind_of_lt hy hb.1 hb.2]
    rcases hx with hx | ⟨h₁, h₂⟩
    · rw [h.shift_before (.inl hx)]
      omega
    · rw [h.shift_behind_of_lt (by omega) h₁ h₂]
      omega
  · rw [h.shift_before (by omega), h.shift_before (by unfold Spares at hx; omega)]
    exact hxy

theorem shift_strict_mono (h : e.Fits t) (hx : e.Spares x) (hne : x ≠ e.offset)
    (hy : y < t.size + Text.maxSize) (hxy : x < y) :
    Offset.shift x e.offset e.stop e.delta < Offset.shift y e.offset e.stop e.delta := by
  by_cases hb : e.offset < y ∧ e.offset + e.oldLength ≤ y
  · rw [h.shift_behind_of_lt hy hb.1 hb.2]
    rcases hx with hx | ⟨h₁, h₂⟩
    · rw [h.shift_before (.inl hx)]
      omega
    · rw [h.shift_behind_of_lt (by omega) h₁ h₂]
      omega
  · rw [h.shift_before (by omega), h.shift_before (by unfold Spares at hx; omega)]
    exact hxy

/-- Offsets of the text stay in it. -/
theorem shift_le_size (h : e.Fits t) (hx : e.Spares x) (hsize : x ≤ t.size) :
    Offset.shift x e.offset e.stop e.delta ≤ (e.applyTo t).size := by
  have hle := h.le_size
  rw [h.size_eq]
  rcases hx with hx | ⟨h₁, h₂⟩
  · rw [h.shift_before (.inl hx)]
    omega
  · rw [h.shift_behind (by omega) h₁ h₂]
    omega

end Fits

/-! ### What the text shows -/

theorem getElem?_before (h : e.offset + e.oldLength ≤ t.size) {x : Nat} (hx : x < e.offset) :
    (e.applyTo t)[x]? = t[x]? := by
  simp only [applyTo, Text.splice]
  rw [Array.append_assoc, Array.getElem?_append_left (by simp; omega), Array.getElem?_extract,
    if_pos (by omega), Nat.zero_add]

theorem getElem?_behind (h : e.offset + e.oldLength ≤ t.size) {x : Nat}
    (hx : e.offset + e.oldLength ≤ x) :
    (e.applyTo t)[x - e.oldLength + e.newLength]? = t[x]? := by
  simp only [applyTo, Text.splice, newLength]
  rw [Array.getElem?_append_right (by simp; omega), Array.getElem?_extract]
  simp only [Array.size_append, Array.size_extract, List.size_toArray]
  by_cases hs : x < t.size
  · rw [if_pos (by omega)]
    congr 1
    omega
  · rw [if_neg (by omega), Array.getElem?_eq_none (by omega)]

theorem shows_before (h : e.offset + e.oldLength ≤ t.size) {x : Nat} (hx : x < e.offset) :
    (e.applyTo t).shows x = t.shows x := by
  rw [Text.shows_of_le (by rw [size_applyTo h]; omega), Text.shows_of_le (by omega),
    getElem?_before h hx]

/-- Behind the edit the text shows the same at the moved place. -/
theorem shows_behind (h : e.offset + e.oldLength ≤ t.size) {x : Nat}
    (hx : e.offset + e.oldLength ≤ x) :
    (e.applyTo t).shows (x - e.oldLength + e.newLength) = t.shows x := by
  unfold Text.shows
  rw [getElem?_behind h hx, size_applyTo h]
  by_cases hs : x ≤ t.size
  · rw [if_pos (by omega), if_pos hs]
  · rw [if_neg (by omega), if_neg hs]

/-! ### Edits that are cut -/

/-- The text after an edit that is cut to it. -/
def into (e : Edit) (t : Text) : Text := (e.clamp t.size).applyTo t

/-- An edit that is cut to the text lies inside it. -/
theorem clamp_le (e : Edit) (size : Nat) : (e.clamp size).offset + (e.clamp size).oldLength ≤ size := by
  simp only [clamp]
  omega

theorem clamp_fits (h : t.size < Text.maxSize) (h' : (e.into t).size < Text.maxSize) :
    (e.clamp t.size).Fits t :=
  ⟨e.clamp_le t.size, h, h'⟩

/-- A splice takes no more than there is, so an edit that starts inside the text need not be cut. -/
theorem into_eq_applyTo (h : e.offset ≤ t.size) : e.into t = e.applyTo t := by
  have hrest : t.extract (e.offset + min e.oldLength (t.size - e.offset)) t.size
      = t.extract (e.offset + e.oldLength) t.size := by
    rcases Nat.le_total e.oldLength (t.size - e.offset) with hle | hle
    · rw [Nat.min_eq_left hle]
    · rw [Nat.min_eq_right hle, Array.extract_empty_of_size_le_start (by omega),
        Array.extract_empty_of_size_le_start (by omega)]
  simp only [into, applyTo, clamp, Text.splice, Nat.min_eq_left h, hrest]

end Edit

/-! ### Edits one after the other -/

namespace Text

/-- The text after some edits. -/
def after (t : Text) (es : List Edit) : Text := es.foldl (fun t e => e.applyTo t) t

@[simp] theorem after_nil (t : Text) : t.after [] = t := rfl

theorem after_append (t : Text) (es fs : List Edit) : t.after (es ++ fs) = (t.after es).after fs :=
  List.foldl_append ..

end Text

/-- Where an offset is found after some edits. -/
def Offset.after (o : Nat) (es : List Edit) : Nat :=
  es.foldl (fun o e => Offset.shift o e.offset e.stop e.delta) o

theorem Offset.after_append (o : Nat) (es fs : List Edit) :
    Offset.after o (es ++ fs) = Offset.after (Offset.after o es) fs := List.foldl_append ..

/-- Every edit fits the text that it is applied to. -/
def Edit.FitAll (t : Text) : List Edit → Prop
  | [] => True
  | e :: es => e.Fits t ∧ FitAll (e.applyTo t) es

namespace Edit.FitAll

variable {t : Text} {es fs : List Edit}

theorem append_iff : FitAll t (es ++ fs) ↔ FitAll t es ∧ FitAll (t.after es) fs := by
  induction es generalizing t with
  | nil => simp [FitAll]
  | cons e es ih =>
    rw [List.cons_append, FitAll, FitAll, ih, and_assoc]
    rfl

theorem drop (h : FitAll t es) (k : Nat) : FitAll (t.after (es.take k)) (es.drop k) := by
  rw [← List.take_append_drop k es] at h
  exact (append_iff.1 h).2

end Edit.FitAll

end Packrat
