import Packrat.Proofs.Text.Lines

/-!
A text and its edits, one after the other.

An offset can be followed through some edits (`Offset.after`) as long as none of them replaces the text
around it (`Edit.SparedAll`); it then stays inside the text.  It may come back to where it was, or never
leave, although its line and column have changed: an edit of the same length can put a newline in front
of it, and two edits of different lengths can cancel each other.  In a steady trail this does not happen
(`Trail.Steady`).  A trail of edits that all put in more than they take out is steady
(`Trail.steady_of_lengthens`): an offset that has stayed has had no edit in front of it.
-/

namespace Packrat

namespace Edit

/-- An offset that follows some edits is never inside of a stretch that one of them replaces. -/
def SparedAll (o : Nat) : List Edit → Prop
  | [] => True
  | e :: es => e.Spares o ∧ SparedAll (Offset.shift o e.offset e.stop e.delta) es

instance (e : Edit) (o : Nat) : Decidable (e.Spares o) :=
  inferInstanceAs (Decidable (_ ∨ _))

instance decidableSparedAll : (o : Nat) → (es : List Edit) → Decidable (SparedAll o es)
  | _, [] => isTrue trivial
  | o, e :: es =>
    have := decidableSparedAll (Offset.shift o e.offset e.stop e.delta) es
    inferInstanceAs (Decidable (_ ∧ _))

variable {t : Text} {o : Nat} {es fs : List Edit}

theorem sparedAll_append : SparedAll o (es ++ fs) ↔ SparedAll o es ∧ SparedAll (Offset.after o es) fs := by
  induction es generalizing o with
  | nil => simp [SparedAll, Offset.after]
  | cons e es ih =>
    rw [List.cons_append, SparedAll, SparedAll, ih, and_assoc]
    rfl

/-- An offset that is followed stays inside the text. -/
theorem FitAll.after_le_size (h : FitAll t es) (hspared : SparedAll o es) (ho : o ≤ t.size) :
    Offset.after o es ≤ (t.after es).size := by
  induction es generalizing t o with
  | nil => exact ho
  | cons e es ih => exact ih h.2 hspared.2 (h.1.shift_le_size hspared.1 ho)

/-- If edits only put in more than they take out, offsets do not move to the front. -/
theorem FitAll.le_after (h : FitAll t es) (hspared : SparedAll o es) (ho : o ≤ t.size)
    (hlengthens : ∀ e ∈ es, e.oldLength < e.newLength) : o ≤ Offset.after o es := by
  induction es generalizing t o with
  | nil => exact Nat.le_refl o
  | cons e es ih =>
    have hrest := ih h.2 hspared.2 (h.1.shift_le_size hspared.1 ho)
      fun e' he' => hlengthens e' (List.mem_cons_of_mem _ he')
    refine Nat.le_trans ?_ hrest
    have hlt := hlengthens e List.mem_cons_self
    rcases hspared.1 with hfront | ⟨h₁, h₂⟩
    · exact Nat.le_of_eq (h.1.shift_before (.inl hfront)).symm
    · rw [h.1.shift_behind (by omega) h₁ h₂]
      omega

/-- If such edits leave an offset in place, they are all made behind it. -/
theorem FitAll.take_after (h : FitAll t es) (hspared : SparedAll o es) (ho : o ≤ t.size)
    (hlengthens : ∀ e ∈ es, e.oldLength < e.newLength) (hstays : Offset.after o es = o) :
    (t.after es).toList.take o = t.toList.take o := by
  induction es generalizing t with
  | nil => rfl
  | cons e es ih =>
    obtain ⟨hfits, hrest⟩ := h
    have hlt := hlengthens e List.mem_cons_self
    have hlengthens' := fun e' he' => hlengthens e' (List.mem_cons_of_mem _ he')
    -- an edit in front would move the offset on, and none of the others moves it back
    have hmoved := hrest.le_after hspared.2 (hfits.shift_le_size hspared.1 ho) hlengthens'
    change _ ≤ Offset.after o (e :: es) at hmoved
    rw [hstays] at hmoved
    have hfront : o ≤ e.offset := by
      rcases hspared.1 with hfront | ⟨h₁, h₂⟩
      · exact hfront
      · rw [hfits.shift_behind (by omega) h₁ h₂] at hmoved
        omega
    have hstays₁ := hfits.shift_before (.inl hfront)
    have hle := hfits.offset_le_size
    have hrec := ih hrest (hstays₁ ▸ hspared.2) (by omega) hlengthens' (by
      change Offset.after (Offset.shift o e.offset e.stop e.delta) es = o at hstays
      rwa [hstays₁] at hstays)
    refine hrec.trans (List.ext_getElem? fun x => ?_)
    simp only [List.getElem?_take, Array.getElem?_toList]
    split
    · exact getElem?_before hfits.le_size (by omega)
    · rfl

end Edit

/-- A text and some edits of it. -/
structure Trail where
  text : Text := #[]
  edits : List Edit := []

namespace Trail

/-- Only the first edits. -/
def take (r : Trail) (k : Nat) : Trail := ⟨r.text, r.edits.take k⟩

/-- The text after the edits. -/
def last (r : Trail) : Text := r.text.after r.edits

/-- One more edit. -/
def extend (r : Trail) (e : Edit) : Trail := ⟨r.text, r.edits ++ [e]⟩

variable {r : Trail} {e : Edit} {k : Nat}

@[simp] theorem take_length (r : Trail) : r.take r.edits.length = r := by
  unfold take
  rw [List.take_length]

theorem take_take {m : Nat} (h : k ≤ m) : (r.take m).take k = r.take k := by
  unfold take
  rw [List.take_take, Nat.min_eq_left h]

theorem take_extend (h : k ≤ r.edits.length) : (r.extend e).take k = r.take k := by
  unfold take extend
  rw [List.take_append_of_le_length h]

theorem last_extend (r : Trail) (e : Edit) : (r.extend e).last = e.applyTo r.last :=
  Text.after_append r.text r.edits [e]

theorem last_take (r : Trail) (k : Nat) : (r.take k).last.after (r.edits.drop k) = r.last := by
  unfold last take
  rw [← Text.after_append, List.take_append_drop]

/-- Whichever edits come last: an offset of the text before them that they leave in place, all of them
taken together, has the line and the column that it had. -/
def Steady (r : Trail) : Prop :=
  ∀ k ≤ r.edits.length, ∀ o ≤ (r.take k).last.size, Edit.SparedAll o (r.edits.drop k) →
    Offset.after o (r.edits.drop k) = o →
    r.last.line o = (r.take k).last.line o ∧ r.last.column o = (r.take k).last.column o

instance (r : Trail) : Decidable r.Steady :=
  inferInstanceAs (Decidable (∀ k ≤ r.edits.length, ∀ o ≤ (r.take k).last.size,
    Edit.SparedAll o (r.edits.drop k) → Offset.after o (r.edits.drop k) = o →
    r.last.line o = (r.take k).last.line o ∧ r.last.column o = (r.take k).last.column o))

/-- Texts that are the same up to an offset give it the same position. -/
theorem position_congr {t u : Text} {o : Nat} (h : u.toList.take o = t.toList.take o) :
    u.line o = t.line o ∧ u.column o = t.column o := by
  unfold Text.column Text.line Text.lineStart
  rw [h]
  exact ⟨rfl, rfl⟩

/-- **Text that is only put in moves everything behind it.** If every edit puts in more than it takes
out, the trail is steady. -/
theorem steady_of_lengthens (h : Edit.FitAll r.text r.edits)
    (hlengthens : ∀ e ∈ r.edits, e.oldLength < e.newLength) : r.Steady := by
  intro k _ o ho hspared hstays
  rw [← r.last_take k]
  exact position_congr ((h.drop k).take_after hspared ho
    (fun e he => hlengthens e (List.mem_of_mem_drop he)) hstays)

/-- A line break in the place of a blank leaves everything behind it where it is, in another line. -/
example : ¬(⟨(Bytes.ascii " aa").toArray, [⟨0, 1, Bytes.ascii "\n"⟩]⟩ : Trail).Steady := by
  decide +kernel

/-- So do a line break that is put in and a letter that is taken out. -/
example : ¬(⟨(Bytes.ascii "aaa").toArray, [⟨0, 0, Bytes.ascii "\n"⟩, ⟨1, 1, []⟩]⟩ : Trail).Steady := by
  decide +kernel

end Trail

end Packrat
