import Packrat.Proofs.Text.Edits
import Packrat.Text.Source
import Mathlib.Data.List.Induction

/-!
Line tables and the positions they give.

The line of an offset counts the newlines in front of it, and the column counts the bytes since the
last one of them (`Text.line`, `Text.column`).  The table of a text gives these positions
(`LineTable.position_ofText`), and an edit of the table gives the table of the edited text
(`LineTable.edit_ofText`), so that the table of a source is always the one that its text has.
-/

namespace Packrat

namespace Text

/-- The line of an offset, counted from 1: one more than the newlines in front of it. -/
def line (t : Text) (o : Nat) : Nat := (t.toList.take o).count Byte.newline + 1

/-- The offset right behind the last newline in front of an offset; 0 if there is none. -/
def lineStart (t : Text) (o : Nat) : Nat :=
  (t.toList.take o).length - ((t.toList.take o).reverse.takeWhile (· != Byte.newline)).length

/-- The column of an offset, counted from 1: the distance from the start of its line. -/
def column (t : Text) (o : Nat) : Nat := o - t.lineStart o + 1

end Text

namespace LineTable

/-! ### The starts of lines -/

theorem startsOf_append (as bs : Bytes) (o : Nat) :
    startsOf (as ++ bs) o = startsOf as o ++ startsOf bs (o + as.length) := by
  induction as generalizing o with
  | nil => rfl
  | cons a as ih =>
    simp only [List.cons_append, startsOf, ih, List.length_cons]
    rw [show o + 1 + as.length = o + (as.length + 1) by omega]
    split <;> rfl

theorem length_startsOf (bs : Bytes) (o : Nat) : (startsOf bs o).length = bs.count Byte.newline := by
  induction bs generalizing o with
  | nil => rfl
  | cons b bs ih =>
    rw [startsOf, List.count_cons]
    split
    · rw [List.length_cons, ih]
    · rw [ih, Nat.add_zero]

theorem startsOf_bounds {bs : Bytes} {o x : Nat} (h : x ∈ startsOf bs o) :
    o < x ∧ x ≤ o + bs.length := by
  induction bs generalizing o with
  | nil => cases h
  | cons b bs ih =>
    rw [startsOf] at h
    rw [List.length_cons]
    split at h
    · rcases List.mem_cons.1 h with rfl | h
      · omega
      · have := ih h; omega
    · have := ih h; omega

theorem startsOf_pairwise (bs : Bytes) (o : Nat) : (startsOf bs o).Pairwise (· < ·) := by
  induction bs generalizing o with
  | nil => exact .nil
  | cons b bs ih =>
    rw [startsOf]
    split
    · exact .cons (fun x hx => (startsOf_bounds hx).1) (ih _)
    · exact ih _

theorem map_add_startsOf (bs : Bytes) (o n : Nat) :
    (startsOf bs o).map (· + n) = startsOf bs (o + n) := by
  induction bs generalizing o with
  | nil => rfl
  | cons b bs ih =>
    simp only [startsOf]
    split
    · rw [List.map_cons, ih, Nat.add_right_comm]
    · rw [ih, Nat.add_right_comm]

/-- All starts of a text. -/
def allStarts (bs : Bytes) : List Nat := 0 :: startsOf bs 0

theorem allStarts_pairwise (bs : Bytes) : (allStarts bs).Pairwise (· < ·) :=
  .cons (fun _ hx => (startsOf_bounds hx).1) (startsOf_pairwise bs 0)

theorem allStarts_append (as bs : Bytes) :
    allStarts (as ++ bs) = allStarts as ++ startsOf bs as.length := by
  simp only [allStarts, startsOf_append, Nat.zero_add, List.cons_append]

theorem allStarts_le {bs : Bytes} {x : Nat} (h : x ∈ allStarts bs) : x ≤ bs.length := by
  rcases List.mem_cons.1 h with rfl | h
  · exact Nat.zero_le _
  · have := (startsOf_bounds h).2
    omega

/-- The last line begins behind the last newline. -/
theorem getLast?_allStarts (bs : Bytes) :
    ∃ x, (allStarts bs).getLast? = some x
      ∧ x + (bs.reverse.takeWhile (· != Byte.newline)).length = bs.length := by
  induction bs using List.reverseRecOn with
  | nil => exact ⟨0, rfl, rfl⟩
  | append_singleton bs b ih =>
    obtain ⟨x, hlast, hx⟩ := ih
    rw [allStarts_append, startsOf, startsOf, List.reverse_append, List.reverse_singleton,
      List.singleton_append, List.takeWhile_cons, List.length_append]
    by_cases hb : (b == Byte.newline) = true
    · have hne : (b != Byte.newline) = false := by simp [bne, hb]
      refine ⟨bs.length + 1, by simp [hb], ?_⟩
      simp [hne]
    · have hne : (b != Byte.newline) = true := by simp [bne, hb]
      refine ⟨x, by simpa [hb] using hlast, ?_⟩
      simp only [hne, if_true, List.length_cons, List.length_nil]
      omega

/-! ### Finding a line -/

/-- A search in a sorted table stops behind the entries that do not exceed `o`. -/
theorem upTo_spec {l : LineTable} (hsorted : l.starts.toList.Pairwise (· < ·)) {first o : Nat}
    (hfirst : first ≤ l.starts.size)
    (hbefore : ∀ x ∈ l.starts.toList.take first, x ≤ o) :
    (∀ x ∈ l.starts.toList.take (l.upTo first o), x ≤ o)
      ∧ (∀ x ∈ l.starts.toList.drop (l.upTo first o), o < x) ∧ l.upTo first o ≤ l.starts.size := by
  have hget : ∀ {i x}, l.starts.toList[i]? = some x → l.starts.getD i 0 = x := by
    intro i x hx
    rw [Array.getD_eq_getD_getElem?, ← Array.getElem?_toList, hx]
    rfl
  have hsome : ∀ {i}, i < l.starts.size → ∃ x, l.starts.toList[i]? = some x := by
    intro i hi
    exact ⟨l.starts[i], by simp [hi]⟩
  have hmono : ∀ {i j x y : Nat}, i ≤ j → l.starts.toList[i]? = some x →
      l.starts.toList[j]? = some y → x ≤ y := by
    intro i j x y hij hx hy
    rcases Nat.eq_or_lt_of_le hij with rfl | hlt
    · exact Nat.le_of_eq (Option.some.inj (hx.symm.trans hy))
    · obtain ⟨hi, rfl⟩ := List.getElem?_eq_some_iff.1 hx
      obtain ⟨hj, rfl⟩ := List.getElem?_eq_some_iff.1 hy
      exact Nat.le_of_lt (List.pairwise_iff_getElem.1 hsorted i j hi hj hlt)
  have hle : l.upTo first o ≤ l.starts.size := by
    have := bisect_le (fun i => l.starts.getD i 0 ≤ o) first (l.starts.size - first)
    unfold upTo
    omega
  obtain ⟨hpass, hfail⟩ := bisect_spec
    (by
      show ∀ i j, first ≤ i → i ≤ j → j < first + (l.starts.size - first) →
        decide (l.starts.getD j 0 ≤ o) = true → decide (l.starts.getD i 0 ≤ o) = true
      intro i j _ hij hj hright
      obtain ⟨x, hx⟩ := hsome (show i < l.starts.size by omega)
      obtain ⟨y, hy⟩ := hsome (show j < l.starts.size by omega)
      simp only [decide_eq_true_eq, hget hx, hget hy] at hright ⊢
      exact Nat.le_trans (hmono hij hx hy) hright)
  refine ⟨fun x hx => ?_, fun x hx => ?_, hle⟩
  · obtain ⟨i, hi⟩ := List.mem_iff_getElem?.1 hx
    rw [List.getElem?_take] at hi
    split at hi
    · next hlt =>
      rcases Nat.lt_or_ge i first with hin | hout
      · refine hbefore x (List.mem_iff_getElem?.2 ⟨i, ?_⟩)
        rw [List.getElem?_take, if_pos hin, hi]
      · have := hpass i hout hlt
        rw [hget hi, decide_eq_true_eq] at this
        exact this
    · cases hi
  · obtain ⟨i, hi⟩ := List.mem_iff_getElem?.1 hx
    rw [List.getElem?_drop] at hi
    have hlt : l.upTo first o + i < l.starts.size := by
      simpa using (List.getElem?_eq_some_iff.1 hi).1
    have := hfail (l.upTo first o + i) (Nat.le_add_right _ _) (by omega)
    rw [hget hi, decide_eq_false_iff_not] at this
    omega

/-- Lists that are cut between small and large entries are cut at the same place. -/
theorem take_eq_of_cut {l as bs : List Nat} {n o : Nat} (happ : l = as ++ bs)
    (has : ∀ x ∈ as, x ≤ o) (hbs : ∀ x ∈ bs, o < x) (htake : ∀ x ∈ l.take n, x ≤ o)
    (hdrop : ∀ x ∈ l.drop n, o < x) (hn : n ≤ l.length) : n = as.length := by
  subst happ
  rcases Nat.lt_trichotomy n as.length with hlt | heq | hgt
  · have hmem : as[n] ∈ (as ++ bs).drop n :=
      List.mem_drop_iff_getElem.2 ⟨0, by simp; omega, by simp [List.getElem_append_left hlt]⟩
    have h₁ := hdrop _ hmem
    have h₂ := has _ (List.getElem_mem hlt)
    omega
  · exact heq
  · simp only [List.length_append] at hn
    have hlt : 0 < bs.length := by omega
    have hmem : bs[0] ∈ (as ++ bs).take n :=
      List.mem_take_iff_getElem.2 ⟨as.length, by simp; omega, by simp⟩
    have h₁ := htake _ hmem
    have h₂ := hbs _ (List.getElem_mem hlt)
    omega

theorem starts_ofText (t : Text) : (ofText t).starts.toList = allStarts t.toList := by
  simp [ofText, allStarts]

/-- The starts up to an offset and those behind it. -/
theorem allStarts_cut (bs : Bytes) (o : Nat) :
    allStarts bs = allStarts (bs.take o) ++ startsOf (bs.drop o) o
      ∧ (∀ x ∈ allStarts (bs.take o), x ≤ o) ∧ ∀ x ∈ startsOf (bs.drop o) o, o < x := by
  refine ⟨?_, fun x hx => ?_, fun x hx => (startsOf_bounds hx).1⟩
  · rcases Nat.le_total o bs.length with ho | ho
    · conv_lhs => rw [← List.take_append_drop o bs]
      rw [allStarts_append, List.length_take, Nat.min_eq_left ho]
    · rw [List.take_of_length_le ho, List.drop_eq_nil_of_le ho]
      simp [startsOf]
  · have := allStarts_le hx
    rw [List.length_take] at this
    omega

theorem upTo_ofText {t : Text} {o : Nat} (first : Nat) (hfirst : first ≤ (ofText t).starts.size)
    (hbefore : ∀ x ∈ (allStarts t.toList).take first, x ≤ o) :
    (ofText t).upTo first o = (allStarts (t.toList.take o)).length := by
  obtain ⟨happ, has, hbs⟩ := allStarts_cut t.toList o
  obtain ⟨htake, hdrop, hle⟩ := upTo_spec (l := ofText t)
    (by rw [starts_ofText]; exact allStarts_pairwise _) hfirst (by rw [starts_ofText]; exact hbefore)
  rw [starts_ofText] at htake hdrop
  exact take_eq_of_cut happ has hbs htake hdrop (by rw [← starts_ofText]; simpa using hle)

/-- The table of a text gives line and column of every offset. -/
theorem position_ofText {t : Text} {o : Nat} (ho : o + 1 < Offset.count) :
    (ofText t).position o = (t.line o, t.column o) := by
  have hline := upTo_ofText (t := t) (o := o) 0 (Nat.zero_le _) (by simp)
  obtain ⟨x, hlast, hx⟩ := getLast?_allStarts (t.toList.take o)
  obtain ⟨happ, hle, -⟩ := allStarts_cut t.toList o
  have hcount : (allStarts (t.toList.take o)).length = t.line o := by
    rw [allStarts, List.length_cons, length_startsOf, Text.line]
  have hget : (ofText t).starts.getD (t.line o - 1) 0 = x := by
    rw [Array.getD_eq_getD_getElem?, ← Array.getElem?_toList, starts_ofText, happ,
      List.getElem?_append_left (by rw [hcount, Text.line]; omega), ← hcount,
      ← List.getLast?_eq_getElem?, hlast]
    rfl
  have hxo : x ≤ o := hle x (List.mem_of_getLast? hlast)
  have hstart : t.lineStart o = x := by
    unfold Text.lineStart
    omega
  unfold position
  rw [hline, hcount]
  dsimp only
  rw [hget]
  congr 1
  have hwrap := Offset.wrap_eq (n := (o : Int) - x + 1) (by omega) (by omega)
  unfold Text.column
  omega

/-! ### Editing the table -/

/-- An edited table is the table of the edited text. -/
theorem edit_ofText {t : Text} {e : Edit} (h : e.Fits t) : (ofText t).edit e = ofText (e.applyTo t) := by
  have hle := h.le_size
  have hsize := h.size_lt
  have hsize' := h.size_lt'
  rw [h.size_eq] at hsize'
  simp only [Text.maxSize] at hsize hsize'
  have hlen : t.toList.length = t.size := by simp
  have hfirst := upTo_ofText (t := t) (o := e.offset) 0 (Nat.zero_le _) (by simp)
  obtain ⟨happ₁, hle₁, -⟩ := allStarts_cut t.toList e.offset
  obtain ⟨happ₂, -, -⟩ := allStarts_cut t.toList (e.offset + e.oldLength)
  have hlast : (ofText t).upTo ((ofText t).upTo 0 e.offset) e.stop
      = (allStarts (t.toList.take (e.offset + e.oldLength))).length := by
    rw [h.stop_eq, hfirst]
    refine upTo_ofText _ ?_ ?_
    · have : (ofText t).starts.size = (allStarts t.toList).length := by
        rw [← starts_ofText]; simp
      rw [this, happ₁, List.length_append]
      omega
    · rw [happ₁, List.take_left]
      intro x hx
      have := hle₁ x hx
      omega
  have htext : (e.applyTo t).toList
      = t.toList.take e.offset ++ e.newText ++ t.toList.drop (e.offset + e.oldLength) := by
    have hall : (t.extract (e.offset + e.oldLength) t.size).toList
        = t.toList.drop (e.offset + e.oldLength) := by
      rw [Array.toList_extract]
      exact List.take_of_length_le (by simp)
    rw [Edit.applyTo, Text.splice, Array.toList_append, Array.toList_append, hall]
    simp
  have hnewLength : e.newText.length = e.newLength := rfl
  have hinserted : ((startsOf e.newText e.offset).map fun o : Nat => Offset.wrap o)
      = startsOf e.newText e.offset := by
    refine (List.map_congr_left fun x hx => ?_).trans (List.map_id _)
    have hb := (startsOf_bounds hx).2
    have := Offset.wrap_eq (n := (x : Int)) (by omega) (by simp only [Offset.count]; omega)
    exact Int.ofNat.inj this
  have hmoved : ((startsOf (t.toList.drop (e.offset + e.oldLength)) (e.offset + e.oldLength)).map
      fun o => Offset.move o e.delta)
      = startsOf (t.toList.drop (e.offset + e.oldLength)) (e.offset + e.newLength) := by
    rw [← Nat.zero_add (e.offset + e.oldLength), ← Nat.zero_add (e.offset + e.newLength),
      ← map_add_startsOf, ← map_add_startsOf, List.map_map]
    simp only [Nat.zero_add]
    refine List.map_congr_left fun x hx => ?_
    have hb := (startsOf_bounds hx).2
    rw [List.length_drop] at hb
    have := @Offset.move_eq (x + (e.offset + e.oldLength)) e.delta
      (by rw [h.delta_eq]; omega) (by rw [h.delta_eq]; simp only [Offset.count]; omega)
    rw [h.delta_eq] at this
    simp only [Function.comp_apply, h.delta_eq]
    omega
  have hstarts : ((ofText t).edit e).starts.toList = (ofText (e.applyTo t)).starts.toList := by
    rw [starts_ofText, htext, allStarts_append, allStarts_append]
    unfold edit
    dsimp only
    rw [hlast, hfirst, hinserted]
    have hfront : ((ofText t).starts.extract 0 (allStarts (t.toList.take e.offset)).length).toList
        = allStarts (t.toList.take e.offset) := by
      rw [Array.toList_extract, starts_ofText, happ₁]
      simp
    have hrest : ((ofText t).starts.extract
        (allStarts (t.toList.take (e.offset + e.oldLength))).length (ofText t).starts.size).toList
        = startsOf (t.toList.drop (e.offset + e.oldLength)) (e.offset + e.oldLength) := by
      rw [Array.toList_extract, ← Array.length_toList, starts_ofText, happ₂]
      simp
    rw [Array.toList_append, Array.toList_append, Array.toList_map, hfront, hrest, hmoved,
      List.length_append, List.length_take, Nat.min_eq_left (by omega), hnewLength]
  exact congrArg LineTable.mk (Array.toList_inj.1 hstarts)

/-- An edit that reaches behind the end of the text removes the same starts as the edit cut to the text,
and no start is left for its change of length to move. -/
theorem edit_clamp {t : Text} {e : Edit} (hoffset : e.offset ≤ t.size)
    (hstop : e.offset + e.oldLength < Offset.count) :
    (ofText t).edit (e.clamp t.size) = (ofText t).edit e := by
  rcases Nat.le_total (e.offset + e.oldLength) t.size with hin | hout
  · have hclamp : e.clamp t.size = e := by
      simp only [Edit.clamp, Nat.min_eq_left hoffset, Nat.min_eq_left (Nat.le_sub_of_add_le' hin)]
    rw [hclamp]
  · have hclamp : e.clamp t.size = ⟨e.offset, t.size - e.offset, e.newText⟩ := by
      simp only [Edit.clamp, Nat.min_eq_left hoffset, Nat.min_eq_right (show t.size - e.offset
        ≤ e.oldLength by omega)]
    have hwrap := Offset.wrap_eq (n := ((e.offset + e.oldLength : Nat) : Int)) (by omega) (by omega)
    have hwrap' := Offset.wrap_eq (n := ((e.offset + (t.size - e.offset) : Nat) : Int)) (by omega)
      (by omega)
    have hsize : (ofText t).starts.size = (allStarts t.toList).length := by
      rw [← starts_ofText, Array.length_toList]
    have hfirst := upTo_ofText (t := t) (o := e.offset) 0 (Nat.zero_le _) (by simp)
    obtain ⟨happ, hle, -⟩ := allStarts_cut t.toList e.offset
    -- the search for the first start behind the edit ends behind the last one
    have hlast : ∀ {stop}, t.size ≤ stop →
        (ofText t).upTo ((ofText t).upTo 0 e.offset) stop = (ofText t).starts.size := by
      intro stop hstop
      have htake : t.toList.take stop = t.toList := List.take_of_length_le (by simpa using hstop)
      rw [upTo_ofText (t := t) (o := stop) _ ?_ ?_, htake, hsize]
      · rw [hfirst, hsize, happ, List.length_append]
        omega
      · intro x hx
        rw [hfirst, happ, List.take_left] at hx
        have := hle x hx
        omega
    rw [hclamp]
    unfold edit Edit.stop
    dsimp only
    rw [hlast (by omega), hlast (by omega)]
    simp

end LineTable

end Packrat
