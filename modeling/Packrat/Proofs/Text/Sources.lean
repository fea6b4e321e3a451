import Packrat.Proofs.Text.Lines

/-!
Sources under edits.

A source is made of a text and its table of lines, and an edit changes both (`Source.edit?`).  The two
follow rules of their own: a splice takes what there is, but the table reckons with the whole length that
the edit names.  The edit only has to start inside the text, so that length can reach far behind the end.

Main statement (`Source.position_editAll`): after any run of edits the positions of a source are those
of a source made anew from the edited text, and count the newlines and bytes of this text.
-/

namespace Packrat

/-- Every edit starts inside the text that it is applied to, the end that it names is an offset, and the
texts on the way are short enough. -/
def Edit.StartAll (t : Text) : List Edit → Prop
  | [] => t.size < Text.maxSize
  | e :: es => t.size < Text.maxSize ∧ e.offset ≤ t.size ∧ e.offset + e.oldLength < Offset.count
      ∧ StartAll (e.applyTo t) es

instance Edit.decidableStartAll (t : Text) : (es : List Edit) → Decidable (StartAll t es)
  | [] => inferInstanceAs (Decidable (t.size < Text.maxSize))
  | e :: es =>
    have := decidableStartAll (e.applyTo t) es
    inferInstanceAs (Decidable (_ ∧ _ ∧ _ ∧ StartAll (e.applyTo t) es))

theorem Edit.StartAll.size_lt {t : Text} {es : List Edit} (h : Edit.StartAll t es) :
    t.size < Text.maxSize := by
  cases es with
  | nil => exact h
  | cons e es => exact h.1

namespace Source

variable {t : Text} {e : Edit} {es : List Edit}

/-- Editing a source keeps its table in step with its text. -/
theorem edit_ofText (h : e.Fits t) : (ofText t).edit e = .ofText (e.applyTo t) := by
  show (⟨e.applyTo t, (LineTable.ofText t).edit e⟩ : Source) = _
  rw [LineTable.edit_ofText h]
  rfl

/-- An edit that reaches behind the end of the text does what it does when it is cut to the text. -/
theorem edit_clamp (hoffset : e.offset ≤ t.size) (hstop : e.offset + e.oldLength < Offset.count) :
    (ofText t).edit (e.clamp t.size) = (ofText t).edit e := by
  show (⟨e.into t, (LineTable.ofText t).edit (e.clamp t.size)⟩ : Source)
    = ⟨e.applyTo t, (LineTable.ofText t).edit e⟩
  rw [Edit.into_eq_applyTo hoffset, LineTable.edit_clamp hoffset hstop]

/-- The source after some edits, each of which has to start inside the text. -/
def editAll? (s : Source) (es : List Edit) : Option Source := es.foldlM edit? s

/-- An edit of a source gives the source of the edited text. -/
theorem edit?_ofText (hoffset : e.offset ≤ t.size) (hstop : e.offset + e.oldLength < Offset.count)
    (hsize : t.size < Text.maxSize) (hsize' : (e.applyTo t).size < Text.maxSize) :
    (ofText t).edit? e = some (.ofText (e.applyTo t)) := by
  have hfits : (e.clamp t.size).Fits t :=
    Edit.clamp_fits hsize (by rwa [Edit.into_eq_applyTo hoffset])
  have htext : (e.clamp t.size).applyTo t = e.applyTo t := Edit.into_eq_applyTo hoffset
  rw [edit?, if_pos (show e.offset ≤ (ofText t).size from hoffset), ← edit_clamp hoffset hstop,
    edit_ofText hfits, htext]

/-- Edits of a source give the source of the edited text. -/
theorem editAll?_ofText (h : Edit.StartAll t es) : (ofText t).editAll? es = some (.ofText (t.after es)) := by
  induction es generalizing t with
  | nil => rfl
  | cons e es ih =>
    obtain ⟨hsize, hoffset, hstop, hrest⟩ := h
    rw [editAll?, List.foldlM_cons, edit?_ofText hoffset hstop hsize hrest.size_lt]
    exact ih hrest

/-- Positions count the newlines in front of an offset, and the bytes since the last of them. -/
theorem position_ofText (hsize : t.size < Text.maxSize) {o : Nat} (ho : o ≤ t.size) :
    (ofText t).position o = (t.line o, t.column o) := by
  have hlt : o + 1 < Offset.count := by
    simp only [Text.maxSize, Offset.count] at *
    omega
  rw [position, show min o (ofText t).size = o from Nat.min_eq_left ho]
  exact LineTable.position_ofText hlt

theorem size_after_lt (h : Edit.StartAll t es) : (t.after es).size < Text.maxSize := by
  induction es generalizing t with
  | nil => exact h
  | cons e es ih => exact ih h.2.2.2

/-- **Line tables follow edits.** After any edits that start inside the text they are applied to, however
far behind its end they reach, a source has the edited text, and the position of every offset is the one
that a source made anew from this text gives: the line counts the newlines in front of the offset, the
column the bytes from behind the last of them. -/
theorem position_editAll (h : Edit.StartAll t es) :
    ∃ s, (ofText t).editAll? es = some s ∧ s.text = t.after es ∧ ∀ o ≤ s.size,
      s.position o = (ofText s.text).position o
        ∧ s.position o = (s.text.line o, s.text.column o) := by
  refine ⟨.ofText (t.after es), editAll?_ofText h, rfl, fun o ho => ⟨rfl, ?_⟩⟩
  exact position_ofText (size_after_lt h) ho

/-- A newline is put in front of the text, and then everything from the third byte on is replaced, with a
length that reaches nearly to the last word. -/
def overlongEdits : List Edit :=
  [⟨0, 0, [Byte.newline]⟩, ⟨2, Offset.count - 3, Bytes.ascii "b\nc"⟩]

/-- Of "a\na\na" there remains "\nab\nc", with a line for the last letter. -/
theorem position_overlongEdits :
    Edit.StartAll (Bytes.ascii "a\na\na").toArray overlongEdits
      ∧ ∃ s, (ofText (Bytes.ascii "a\na\na").toArray).editAll? overlongEdits = some s
        ∧ s.text = (Bytes.ascii "\nab\nc").toArray ∧ s.position 4 = (3, 1) := by
  have hstart : Edit.StartAll (Bytes.ascii "a\na\na").toArray overlongEdits := by decide
  obtain ⟨s, hs, htext, hposition⟩ := position_editAll hstart
  have htext : s.text = (Bytes.ascii "\nab\nc").toArray := by rw [htext]; decide
  refine ⟨hstart, s, hs, htext, ?_⟩
  rw [(hposition 4 (by rw [size, htext]; decide)).2, htext]
  decide

end Source

end Packrat
