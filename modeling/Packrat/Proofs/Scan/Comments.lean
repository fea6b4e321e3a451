import Packrat.Proofs.Scan.Locality

/-!
Comments, one at a time.

A comment that is found is never empty (`Scan.comment_movesOn`), and the same comment is found where
the same was looked at (`Scan.comment_moved`).  There is one exception, and it is in the way a comment
with an expression of its own is looked for.  Its opening is compared first, in full; what counts as
examined afterwards is the window that the expression is given.  An opening that is longer than the
window by more than one byte is therefore compared with bytes that do not count as examined, so the
second statement is about comments whose opening fits (`Comment.FitsWindow`).
-/

namespace Packrat

namespace Scan

variable {t t' : Text} {o o' : Nat}

/-! ### One comment -/

theorem commonLength_le (t : Text) (opening : Bytes) (o : Nat) :
    commonLength t opening o ≤ opening.length := by
  induction opening generalizing o with
  | nil => exact Nat.le_refl 0
  | cons b bs ih =>
    rw [commonLength]
    have := ih (o + 1)
    split <;> simp only [List.length_cons] <;> omega

theorem add_commonLength_le (ho : o ≤ t.size) (opening : Bytes) :
    o + commonLength t opening o ≤ t.size := by
  induction opening generalizing o with
  | nil => exact ho
  | cons b bs ih =>
    rw [commonLength]
    split
    · next hb =>
      have hlt : o < t.size := (Array.getElem?_eq_some_iff.1 (beq_iff_eq.1 hb)).1
      have := ih (o := o + 1) (by omega)
      omega
    · exact ho

/-- The first byte that differs from an opening, or the end of the opening, is found at the
corresponding place. -/
theorem AgreeUpTo.commonLength_eq {stop : Nat} (h : AgreeUpTo t t' o o' stop) (ho : o ≤ t.size)
    {opening : Bytes} (hstop : o + opening.length ≤ stop ∨ o + commonLength t opening o < stop) :
    commonLength t' opening o' = commonLength t opening o := by
  induction opening generalizing o o' with
  | nil => rfl
  | cons b bs ih =>
    rw [commonLength] at hstop
    have hbyte : t'[o']? = t[o]? := by
      have hlt : o < stop := by
        rcases hstop with hstop | hstop
        · simp only [List.length_cons] at hstop; omega
        · omega
      have := h.getElem? ho (Nat.le_refl o) hlt
      rwa [show o' + (o - o) = o' by omega] at this
    rw [commonLength, commonLength, hbyte]
    split
    · next hb =>
      have hlt : o < t.size := (Array.getElem?_eq_some_iff.1 (beq_iff_eq.1 hb)).1
      have hdrop := h.drop (x := o + 1) (by omega)
      rw [show o' + (o + 1 - o) = o' + 1 by omega] at hdrop
      rw [if_pos hb] at hstop
      rw [ih hdrop (by omega) (by simp only [List.length_cons] at hstop; omega)]
    · rfl

theorem lineEnd_eq {x : Nat} (hx : x ≤ t.size) :
    lineEnd t x = t.scanWhile (fun b => !Byte.isLineEnd b) x :=
  Nat.min_eq_left (Text.scanWhile_le t _ hx)

theorem proper_upTo {x stop s : Nat} (h : proper x stop = .upTo s) : s = stop ∧ stop ≠ x := by
  unfold proper at h
  split at h
  · cases h
  · next hne => exact ⟨(Reach.upTo.inj h).symm, by simpa using hne⟩

theorem proper_ne_beyond (x stop : Nat) : proper x stop ≠ .beyond := by
  unfold proper
  split <;> simp

theorem proper_moved {x stop : Nat} (h : x ≤ stop) (x' : Nat) :
    proper x' (x' + (stop - x)) = (proper x stop).moved x x' := by
  unfold proper
  by_cases hne : stop = x
  · subst hne; simp [Reach.moved]
  · rw [if_neg (by simp; omega), if_neg (by simpa using hne)]
    rfl

/-- A look that is inside the text and moves on if it finds something. -/
structure MovesOn (t : Text) (o : Nat) (l : Look) : Prop extends l.Inside t o where
  lt : ∀ {stop}, l.reach = .upTo stop → o < stop

theorem look_movesOn {stop : Nat} {reach : Reach} (ho : o ≤ t.size) (hstop : o ≤ stop)
    (hne : reach ≠ .beyond)
    (hupTo : ∀ {s}, reach = .upTo s → o < s ∧ s ≤ t.size ∧ s ≤ stop) :
    MovesOn t o (look t o stop reach) where
  toInside := look_inside ho hstop hne fun hs => ⟨Nat.le_of_lt (hupTo hs).1, (hupTo hs).2⟩
  lt := fun hs => (hupTo hs).1

theorem find?_mem {terminator : Bytes} {body limit found : Nat} (hlimit : limit ≤ t.size)
    (h : t.find? terminator body limit = some found) :
    body ≤ found ∧ found + terminator.length ≤ limit ∧ found + terminator.length ≤ t.size := by
  unfold Text.find? at h
  obtain ⟨h₁, h₂, h₃, -⟩ := Text.findWithin_eq_some_iff.1 h
  exact ⟨h₁, by omega, Text.startsAt_append_size h₃ (by omega)⟩

theorem terminated_movesOn {terminator : Bytes} {crossesLines : Bool} {body : Nat}
    (ho : o ≤ body) (hbody : body ≤ t.size) :
    MovesOn t o (terminated t terminator crossesLines o body) := by
  unfold terminated
  split
  · split
    · next found hfound =>
      obtain ⟨h₁, -, h₂⟩ := find?_mem (Nat.le_refl _) hfound
      refine look_movesOn (by omega) (by omega) (proper_ne_beyond _ _) ?_
      intro s hs
      obtain ⟨rfl, hne⟩ := proper_upTo hs
      omega
    · exact look_movesOn (by omega) (by omega) (by simp) (by intro s hs; cases hs)
  · rw [if_neg (by omega)]
    dsimp only
    split
    · next found hfound =>
      obtain ⟨h₁, -, h₂⟩ := find?_mem (Nat.min_le_left _ _) hfound
      refine look_movesOn (by omega) (by omega) (proper_ne_beyond _ _) ?_
      intro s hs
      obtain ⟨rfl, hne⟩ := proper_upTo hs
      omega
    · have := Text.le_scanWhile t (fun b => !Byte.isLineEnd b) body
      rw [lineEnd_eq hbody]
      exact look_movesOn (by omega) (by omega) (by simp) (by intro s hs; cases hs)

/-- The opening is among the examined places. -/
theorem le_terminated_stop {terminator : Bytes} {crossesLines : Bool} {body : Nat}
    (hbody : body ≤ t.size) : body ≤ (terminated t terminator crossesLines o body).stop := by
  unfold terminated
  split
  · split
    · next found hfound =>
      obtain ⟨h₁, -, h₂⟩ := find?_mem (Nat.le_refl _) hfound
      simp only [look]
      omega
    · simp only [look]
      omega
  · rw [if_neg (by omega)]
    dsimp only
    split
    · next found hfound =>
      obtain ⟨h₁, -, h₂⟩ := find?_mem (Nat.min_le_left _ _) hfound
      simp only [look]
      omega
    · have := Text.le_scanWhile t (fun b => !Byte.isLineEnd b) body
      rw [lineEnd_eq hbody]
      simp only [look]
      omega

theorem regex_movesOn (ho : o ≤ t.size) (r : Regex) : MovesOn t o (regex t r o) := by
  unfold regex
  dsimp only
  rw [if_pos ho]
  refine look_movesOn ho (by omega) ?_ ?_
  · split
    · exact proper_ne_beyond _ _
    · simp
  · intro s hs
    split at hs
    · next p hp =>
      obtain ⟨rfl, hne⟩ := proper_upTo hs
      have := Regex.matchFrom_mem r (by dsimp only; omega) (by dsimp only; omega) hp
      dsimp only at this
      omega
    · cases hs

/-- A comment lies inside the text and is not empty. -/
theorem comment_movesOn (ho : o ≤ t.size) (c : Comment) : MovesOn t o (comment t c o) := by
  have hcommon := add_commonLength_le ho c.opening
  have hle := commonLength_le t c.opening o
  unfold comment
  dsimp only
  split
  · exact look_movesOn ho (by omega) (by simp) (by intro s hs; cases hs)
  · have hbody : o + c.opening.length ≤ t.size := by omega
    split
    · next hshape =>
      refine look_movesOn ho (by omega) (by simp) ?_
      intro s hs
      obtain rfl := Reach.upTo.inj hs
      have := List.length_pos_iff.2 (c.opening_ne_nil hshape)
      omega
    · have h₁ := Text.le_scanWhile t (fun b => !Byte.isLineEnd b) (o + c.opening.length)
      have h₂ := Text.scanWhile_le t (fun b => !Byte.isLineEnd b) hbody
      rw [lineEnd_eq hbody]
      refine look_movesOn ho (by omega) (proper_ne_beyond _ _) ?_
      intro s hs
      obtain ⟨rfl, hne⟩ := proper_upTo hs
      omega
    · refine look_movesOn ho (by omega) (proper_ne_beyond _ _) ?_
      intro s hs
      obtain ⟨rfl, hne⟩ := proper_upTo hs
      omega
    · exact terminated_movesOn (by omega) hbody
    · exact regex_movesOn ho _

/-! ### The same comment elsewhere -/

theorem proper_look_eq {stop : Nat} (h : AgreeUpTo t t' o o' stop) (ho : o ≤ t.size)
    (ho' : o' ≤ t'.size) (hstop : o ≤ stop) :
    look t' o' (o' + (stop - o)) (proper o' (o' + (stop - o)))
      = (look t o stop (proper o stop)).moved o' :=
  h.look_eq ho ho' hstop (proper o stop) (proper_moved hstop o')

theorem AgreeUpTo.lineEnd_eq {stop : Nat} (h : AgreeUpTo t t' o o' stop) (ho' : o' ≤ t'.size)
    {x : Nat} (hx : o ≤ x) (hs : x ≤ t.size) (hlt : lineEnd t x < stop) :
    lineEnd t' (o' + (x - o)) = o' + (lineEnd t x - o) := by
  have hx' : o' + (x - o) ≤ t'.size := by
    have hle := Text.le_scanWhile t (fun b => !Byte.isLineEnd b) x
    rw [Scan.lineEnd_eq hs] at hlt
    exact Text.Agree.le_size h ho' (k := x - o) (by omega) (by omega)
  rw [Scan.lineEnd_eq hs] at hlt ⊢
  rw [Scan.lineEnd_eq hx', h.scanWhile_eq hx hs _ hlt]

/-- An empty terminator is found at once. -/
theorem terminator_pos {terminator : Bytes} {body limit : Nat} (hbody : body ≤ limit)
    (h : t.find? terminator body limit = none) : 0 < terminator.length := by
  rcases terminator with _ | ⟨b, bs⟩
  · unfold Text.find? at h
    rw [Text.findWithin_eq_none_iff] at h
    have := h body (Nat.le_refl _) (by simp; omega)
    simp [Text.startsAt] at this
  · simp

/-- A terminator that begins in the same line does so at the corresponding place. -/
theorem AgreeUpTo.le_lineEnd {stop : Nat} (h : AgreeUpTo t t' o o' stop) (ho : o ≤ t.size)
    (ho' : o' ≤ t'.size) {x y : Nat} (hx : o ≤ x) (hxy : x ≤ y) (hy : y ≤ lineEnd t x)
    (hs : x ≤ t.size) (hstop : y ≤ stop) : o' + (y - o) ≤ lineEnd t' (o' + (x - o)) := by
  have hsize := Text.scanWhile_le t (fun b => !Byte.isLineEnd b) hs
  rw [Scan.lineEnd_eq hs] at hy
  have hx' := Text.Agree.le_size h ho' (k := x - o) (by omega) (by omega)
  rw [Scan.lineEnd_eq hx']
  refine Text.le_scanWhile_of_inside (by omega) fun z hz hzy => ?_
  have hbyte := h.getElem? ho (x := o + (z - o')) (by omega) (by omega)
  rw [show o' + (o + (z - o') - o) = z by omega] at hbyte
  rw [hbyte]
  exact Text.inside_of_lt_scanWhile (o := x) (by omega) (by omega)

/-- What agrees from `o` on does so from the end of the opening on. -/
theorem AgreeUpTo.behind {stop n m : Nat} (h : AgreeUpTo t t' o o' stop)
    (hm : m ≤ min stop (t.size + 1) - (o + n)) : t.Agree t' (o + n) (o' + n) m := by
  have := h.drop (x := o + n) (by omega)
  rw [show o' + (o + n - o) = o' + n by omega] at this
  exact Text.Agree.mono this hm

/-- A comment that may go over several lines is looked for up to the end of the text. -/
theorem terminated_across_moved {terminator : Bytes} {n : Nat} (ho' : o' ≤ t'.size)
    (hbody : o + n ≤ t.size)
    (h : t.Agree t' o o' ((terminated t terminator true o (o + n)).stop - o)) :
    terminated t' terminator true o' (o' + n)
      = (terminated t terminator true o (o + n)).moved o' := by
  have ho : o ≤ t.size := by omega
  unfold terminated at h ⊢
  simp only [if_true] at h ⊢
  cases hfind : t.find? terminator (o + n) t.size with
  | some found =>
    rw [hfind] at h
    have hagree := agreeUpTo_of_look h
    obtain ⟨h₁, h₂, -⟩ := find?_mem (Nat.le_refl _) hfind
    have hend := Text.Agree.le_size hagree ho' (k := found + terminator.length - o) (by omega)
      (by omega)
    have hfound := Text.find?_agree_some (Nat.le_refl _) hfind (hagree.behind (by omega))
      (by omega : _ ≤ t'.size)
    rw [hfound]
    dsimp only
    rw [← proper_look_eq hagree ho ho' (by omega), show o' + n + (found - (o + n))
      + terminator.length = o' + (found + terminator.length - o) by omega]
  | none =>
    rw [hfind] at h
    have hagree : AgreeUpTo t t' o o' (t.size + 1) := agreeUpTo_of_look h
    have hend := Text.Agree.size_eq hagree (k := t.size - o) (by omega) (by omega)
    have hnone := Text.find?_agree_none (terminator_pos (by omega) hfind) (Nat.le_refl _) hfind
      (hagree.behind (by omega))
    rw [show o' + n + (t.size - (o + n)) = t'.size by omega] at hnone
    rw [hnone]
    dsimp only
    rw [← hagree.look_eq ho ho' (by omega) .nothing rfl]
    congr 1
    omega

/-- A comment within a line is looked for up to the end of this line. -/
theorem terminated_within_moved {terminator : Bytes} {n : Nat} (ho' : o' ≤ t'.size)
    (hbody : o + n ≤ t.size)
    (h : t.Agree t' o o' ((terminated t terminator false o (o + n)).stop - o)) :
    terminated t' terminator false o' (o' + n)
      = (terminated t terminator false o (o + n)).moved o' := by
  have ho : o ≤ t.size := by omega
  have hline := Text.le_scanWhile t (fun b => !Byte.isLineEnd b) (o + n)
  have hline' := Text.scanWhile_le t (fun b => !Byte.isLineEnd b) hbody
  rw [← lineEnd_eq hbody] at hline hline'
  unfold terminated at h ⊢
  simp only [Bool.false_eq_true, if_false, if_neg (Nat.not_lt.2 hbody)] at h ⊢
  cases hfind : t.find? terminator (o + n)
      (min t.size (lineEnd t (o + n) + terminator.length)) with
  | some found =>
    rw [hfind] at h
    have hagree := agreeUpTo_of_look h
    obtain ⟨h₁, h₂, h₃⟩ := find?_mem (Nat.min_le_left _ _) hfind
    have hbody' := Text.Agree.le_size hagree ho' (k := n) (by omega) hbody
    have hend' := Text.Agree.le_size hagree ho' (k := found + terminator.length - o) (by omega)
      (by omega)
    have hle := hagree.le_lineEnd ho ho' (x := o + n) (y := found) (by omega) h₁ (by omega) hbody
      (by omega)
    rw [show o' + (o + n - o) = o' + n by omega] at hle
    have hfound := Text.find?_agree_some (Nat.min_le_left _ _) hfind (hagree.behind (by omega))
      (by omega : _ ≤ min t'.size (lineEnd t' (o' + n) + terminator.length))
    rw [if_neg (by omega), hfound]
    dsimp only
    rw [← proper_look_eq hagree ho ho' (by omega), show o' + n + (found - (o + n))
      + terminator.length = o' + (found + terminator.length - o) by omega]
  | none =>
    rw [hfind] at h
    generalize hlimit : min t.size (lineEnd t (o + n) + terminator.length) = limit at h hfind
    have hagree : AgreeUpTo t t' o o' (limit + 1) := agreeUpTo_of_look h
    have hbody' := Text.Agree.le_size hagree ho' (k := n) (by omega) hbody
    have hlineEnd := hagree.lineEnd_eq ho' (x := o + n) (by omega) hbody (by omega)
    rw [show o' + (o + n - o) = o' + n by omega] at hlineEnd
    -- the search ends at the corresponding place, be it the end of the text or not
    have hlimit' : min t'.size (lineEnd t' (o' + n) + terminator.length) = o' + (limit - o) := by
      by_cases hs : limit = t.size
      · have := Text.Agree.size_eq hagree (k := t.size - o) (by omega) (by omega)
        omega
      · have := Text.Agree.lt_size hagree (k := limit - o) (by omega) (by omega)
        omega
    have hnone := Text.find?_agree_none (terminator_pos (by omega) hfind) (by omega) hfind
      (hagree.behind (by omega))
    rw [show o' + n + (limit - (o + n)) = o' + (limit - o) by omega] at hnone
    rw [if_neg (by omega), hlimit', hnone]
    dsimp only
    rw [← hagree.look_eq ho ho' (by omega) .nothing rfl]
    congr 1
    omega

theorem terminated_moved {terminator : Bytes} {crossesLines : Bool} {n : Nat}
    (ho' : o' ≤ t'.size) (hbody : o + n ≤ t.size)
    (h : t.Agree t' o o' ((terminated t terminator crossesLines o (o + n)).stop - o)) :
    terminated t' terminator crossesLines o' (o' + n)
      = (terminated t terminator crossesLines o (o + n)).moved o' := by
  cases crossesLines with
  | true => exact terminated_across_moved ho' hbody h
  | false => exact terminated_within_moved ho' hbody h

theorem regex_moved (ho : o ≤ t.size) (ho' : o' ≤ t'.size) {r : Regex}
    (h : t.Agree t' o o' ((regex t r o).stop - o)) : regex t' r o' = (regex t r o).moved o' := by
  unfold regex at h ⊢
  dsimp only at h ⊢
  rw [if_pos ho] at h
  rw [if_pos ho, if_pos ho']
  generalize hstop : min t.size (o + regexWindow) = stop at h ⊢
  have hagree : AgreeUpTo t t' o o' (stop + 1) := agreeUpTo_of_look h
  -- whether the text goes on behind the window is seen one place behind it
  have hends : (stop < t.size ∧ o' + (stop - o) < t'.size)
      ∨ (stop = t.size ∧ o' + (stop - o) = t'.size) := by
    rcases Nat.lt_or_ge stop t.size with hlt | hge
    · exact .inl ⟨hlt, Text.Agree.lt_size hagree (k := stop - o) (by omega) (by omega)⟩
    · exact .inr ⟨by omega, Text.Agree.size_eq hagree (k := stop - o) (by omega) (by omega)⟩
  have hstop' : min t'.size (o' + regexWindow) = o' + (stop - o) := by omega
  have halike : Regex.Alike o o' (stop - o)
      { text := t, origin := o, stop := stop, cut := stop < t.size }
      { text := t', origin := o', stop := o' + (stop - o), cut := o' + (stop - o) < t'.size } := by
    refine ⟨by dsimp only; omega, rfl, by dsimp only; omega, Text.Agree.mono hagree (by omega),
      ⟨0, by omega, rfl, rfl⟩, ?_⟩
    rcases hends with ⟨h₁, h₂⟩ | ⟨h₁, h₂⟩
    · simp [h₁, h₂]
    · simp [h₁, ← h₂]
  rw [hstop', Regex.matchFrom_alike r halike, show o' + (stop - o) + 1 = o' + (stop + 1 - o) by omega]
  refine hagree.look_eq ho ho' (by omega) _ ?_
  cases hp : r.matchFrom { text := t, origin := o, stop := stop, cut := stop < t.size } with
  | none => rfl
  | some p =>
    have hmem := Regex.matchFrom_mem r (by dsimp only; omega) (by dsimp only; omega) hp
    exact proper_moved hmem.1 o'

end Scan

/-- The opening of a comment with an expression of its own lies in what counts as examined. -/
def Comment.FitsWindow (c : Comment) : Prop :=
  ∀ r, c.shape = .regex r → c.opening.length ≤ Scan.regexWindow + 1

/-- The usual comments have no expression of their own. -/
theorem Comment.fitsWindow_of_mem_defaults : ∀ c ∈ Comment.defaults, c.FitsWindow := by
  intro c hc r hr
  rcases List.mem_cons.1 hc with rfl | hc
  · cases hr
  · cases List.mem_singleton.1 hc
    cases hr

namespace Scan

variable {t t' : Text} {o o' : Nat}

theorem comment_moved (ho : o ≤ t.size) (ho' : o' ≤ t'.size) {c : Comment} (hfits : c.FitsWindow)
    (h : t.Agree t' o o' ((comment t c o).stop - o)) : comment t' c o' = (comment t c o).moved o' := by
  have hcommon := add_commonLength_le ho c.opening
  have hle := commonLength_le t c.opening o
  unfold comment at h ⊢
  dsimp only at h ⊢
  by_cases hlt : commonLength t c.opening o < c.opening.length
  · rw [if_pos hlt] at h
    have hagree := agreeUpTo_of_look h
    rw [hagree.commonLength_eq ho (.inr (by omega)), if_pos hlt, if_pos hlt,
      ← hagree.look_eq ho ho' (by omega) .nothing rfl]
    congr 1
    omega
  · rw [if_neg hlt] at h
    have hbody : o + c.opening.length ≤ t.size := by omega
    have hsame : ∀ {stop}, AgreeUpTo t t' o o' stop → o + c.opening.length ≤ stop →
        commonLength t' c.opening o' = c.opening.length := by
      intro stop hagree hstop
      rw [hagree.commonLength_eq ho (.inl hstop)]
      omega
    rw [if_neg hlt]
    cases hshape : c.shape with
    | literal =>
      rw [hshape] at h
      have hagree := agreeUpTo_of_look h
      rw [hsame hagree (Nat.le_refl _), if_neg (Nat.lt_irrefl _)]
      dsimp only
      rw [← hagree.look_eq ho ho' (by omega) (.upTo (o + c.opening.length)) rfl]
      simp only [Reach.moved]
      congr 1
      · omega
      · congr 1; omega
    | toLineEnd =>
      rw [hshape] at h
      have hagree := agreeUpTo_of_look h
      have hline := Text.le_scanWhile t (fun b => !Byte.isLineEnd b) (o + c.opening.length)
      rw [← lineEnd_eq hbody] at hline
      rw [hsame hagree (by omega), if_neg (Nat.lt_irrefl _)]
      dsimp only
      have heq := hagree.lineEnd_eq ho' (x := o + c.opening.length) (by omega) hbody (by omega)
      rw [show o' + (o + c.opening.length - o) = o' + c.opening.length by omega] at heq
      rw [heq, ← hagree.look_eq ho ho' (by omega) (proper o (lineEnd t (o + c.opening.length)))
        (proper_moved (by omega) o')]
      congr 1
      omega
    | toInputEnd =>
      rw [hshape] at h
      have hagree : AgreeUpTo t t' o o' (t.size + 1) := agreeUpTo_of_look h
      have hend := Text.Agree.size_eq hagree (k := t.size - o) (by omega) (by omega)
      rw [hsame hagree (by omega), if_neg (Nat.lt_irrefl _)]
      dsimp only
      rw [← hend, ← hagree.look_eq ho ho' (by omega) (proper o t.size) (proper_moved ho o')]
      congr 1
      omega
    | upTo terminator crossesLines =>
      rw [hshape] at h
      dsimp only at h ⊢
      have hmoves : MovesOn t o (terminated t terminator crossesLines o (o + c.opening.length)) :=
        terminated_movesOn (Nat.le_add_right o c.opening.length) hbody
      have hstop : o + c.opening.length
          ≤ (terminated t terminator crossesLines o (o + c.opening.length)).stop :=
        le_terminated_stop hbody
      rw [hsame (Text.Agree.mono h (by have := hmoves.stop_le; omega)) hstop,
        if_neg (Nat.lt_irrefl _)]
      exact terminated_moved ho' hbody h
    | regex r =>
      rw [hshape] at h
      dsimp only at h ⊢
      have hagree : AgreeUpTo t t' o o' (min t.size (o + regexWindow) + 1) := agreeUpTo_of_look h
      have := hfits r hshape
      rw [hsame hagree (by omega), if_neg (Nat.lt_irrefl _)]
      exact regex_moved ho ho' h

end Scan

end Packrat
