import Packrat.Proofs.Scan.Ignored

/-!
Where skipping ends.

White space and comments are skipped in rounds, and rounds go on while they find something.  The number
of rounds is bounded (`Scan.ignored`), but no bound is needed: comments are never empty, so every round
but the last one moves on, and the rounds come to an end by themselves (`Scan.Skips`).

What is skipped is white space and accepted comments, one behind the other (`Scan.Ignorable`).  In the
last round neither is found, and all comments are tried at the same place, so that is where nothing is
left to skip.

Main statement: `Scan.ignored_settles`.
-/

namespace Packrat

namespace Scan

variable {t : Text} {o m stop x fuel : Nat} {found : Bool} {cs : List Comment} {f : Footprint}

/-! ### What is skipped -/

/-- The stretch `[o, stop)` is white space and accepted comments, one behind the other. -/
inductive Ignorable (t : Text) (cs : List Comment) : Nat → Nat → Prop
  | nil {o : Nat} : Ignorable t cs o o
  | blanks {o m stop : Nat} : o < m →
      (∀ x, o ≤ x → x < m → ∃ b, t[x]? = some b ∧ Byte.isBlank b = true) →
      Ignorable t cs m stop → Ignorable t cs o stop
  | comment {c : Comment} {o m stop : Nat} : c ∈ cs → (comment t c o).reach = .upTo m →
      Ignorable t cs m stop → Ignorable t cs o stop

/-- The offset lies in a comment that is accepted between `o` and `stop`. -/
def Commented (t : Text) (cs : List Comment) (o stop x : Nat) : Prop :=
  ∃ c ∈ cs, ∃ a b, (comment t c a).reach = .upTo b ∧ o ≤ a ∧ a ≤ x ∧ x < b ∧ b ≤ stop

theorem Commented.mono {o' : Nat} (h : Commented t cs o stop x) (ho : o' ≤ o) :
    Commented t cs o' stop x := by
  obtain ⟨c, hc, a, b, hreach, h₁, h₂⟩ := h
  exact ⟨c, hc, a, b, hreach, Nat.le_trans ho h₁, h₂⟩

namespace Ignorable

theorem append (h : Ignorable t cs o m) (h' : Ignorable t cs m stop) : Ignorable t cs o stop := by
  induction h with
  | nil => exact h'
  | blanks hlt hblank _ ih => exact .blanks hlt hblank (ih h')
  | comment hc hreach _ ih => exact .comment hc hreach (ih h')

theorem le_stop (h : Ignorable t cs o stop) (ho : o ≤ t.size) : o ≤ stop := by
  induction h with
  | nil => exact Nat.le_refl _
  | @blanks o m stop hlt hblank _ ih =>
    obtain ⟨b, hb, -⟩ := hblank (m - 1) (by omega) (by omega)
    obtain ⟨hsize, -⟩ := Array.getElem?_eq_some_iff.1 hb
    have := ih (by omega)
    omega
  | @comment c o m stop _ hreach _ ih =>
    obtain ⟨h₁, h₂, -⟩ := (comment_movesOn ho c).upTo hreach
    exact Nat.le_trans h₁ (ih h₂)

/-- Each byte of the stretch is white space or lies in a comment. -/
theorem blank_or_commented (h : Ignorable t cs o stop) (ho : o ≤ t.size) (h₁ : o ≤ x) (h₂ : x < stop) :
    (∃ b, t[x]? = some b ∧ Byte.isBlank b = true) ∨ Commented t cs o stop x := by
  induction h with
  | nil => omega
  | @blanks o m stop hlt hblank _ ih =>
    obtain ⟨b, hb, -⟩ := hblank (m - 1) (by omega) (by omega)
    obtain ⟨hsize, -⟩ := Array.getElem?_eq_some_iff.1 hb
    rcases Nat.lt_or_ge x m with hin | hge
    · exact .inl (hblank x h₁ hin)
    · exact (ih (by omega) hge h₂).imp_right fun h => h.mono (Nat.le_of_lt hlt)
  | @comment c o m stop hc hreach hrest ih =>
    obtain ⟨hle, hsize, -⟩ := (comment_movesOn ho c).upTo hreach
    rcases Nat.lt_or_ge x m with hin | hge
    · exact .inr ⟨c, hc, o, m, hreach, Nat.le_refl o, h₁, hin, hrest.le_stop hsize⟩
    · exact (ih hsize hge h₂).imp_right fun h => h.mono hle

end Ignorable

/-- What a round passes over are comments. -/
theorem commentsPass_ignorable {cs' : List Comment} (hcs : cs' ⊆ cs) :
    Ignorable t cs o (commentsPass t cs' found o).stop := by
  induction cs' generalizing found o with
  | nil => exact .nil
  | cons c cs' ih =>
    obtain ⟨hc, hrest⟩ := List.cons_subset.1 hcs
    rw [commentsPass]
    cases hreach : (comment t c o).reach with
    | upTo m => exact .comment hc hreach (ih hrest)
    | nothing => exact ih hrest
    | beyond => exact ih hrest

theorem ignoredRound_ignorable : Ignorable t cs o (ignoredRound t cs o).stop := by
  have hcomments : Ignorable t cs (t.scanWhile Byte.isBlank o) (ignoredRound t cs o).stop :=
    commentsPass_ignorable (List.Subset.refl cs)
  rcases Nat.eq_or_lt_of_le (Text.le_scanWhile t Byte.isBlank o) with heq | hlt
  · rwa [← heq] at hcomments
  · exact .blanks hlt (fun x h₁ h₂ => Text.inside_of_lt_scanWhile h₁ h₂) hcomments

theorem ignoredWithin_ignorable : Ignorable t cs o (ignoredWithin t cs fuel o).1 := by
  induction fuel generalizing o with
  | zero => exact .nil
  | succ fuel ih =>
    rw [ignoredWithin]
    dsimp only
    split
    · exact ignoredRound_ignorable.append ih
    · exact ignoredRound_ignorable

/-! ### The last round -/

/-- A round of comments that finds nothing stays where it is, and has tried all of them there. -/
theorem commentsPass_of_not_found (ho : o ≤ t.size) (h : (commentsPass t cs found o).found = false) :
    found = false ∧ (commentsPass t cs found o).stop = o
      ∧ ∀ c ∈ cs, (comment t c o).reach = .nothing := by
  induction cs generalizing found o with
  | nil => exact ⟨h, rfl, by simp⟩
  | cons c cs ih =>
    rw [commentsPass] at h ⊢
    cases hreach : (comment t c o).reach with
    | upTo m =>
      rw [hreach] at h
      exact absurd (ih ((comment_movesOn ho c).upTo hreach).2.1 h).1 (by decide)
    | nothing =>
      rw [hreach] at h
      obtain ⟨hfound, hstop, hrest⟩ := ih ho h
      exact ⟨hfound, hstop, List.forall_mem_cons.2 ⟨hreach, hrest⟩⟩
    | beyond => exact absurd hreach (comment_movesOn ho c).ne_beyond

/-- Where a round finds nothing, there is no white space and no comment. -/
theorem ignoredRound_of_not_found (ho : o ≤ t.size) (h : (ignoredRound t cs o).found = false) :
    (ignoredRound t cs o).stop = o ∧ t.scanWhile Byte.isBlank o = o
      ∧ ∀ c ∈ cs, (comment t c o).reach = .nothing := by
  obtain ⟨hfound, hstop, hnothing⟩ := commentsPass_of_not_found (Text.scanWhile_le t Byte.isBlank ho) h
  have hblanks : t.scanWhile Byte.isBlank o = o := by simpa using hfound
  refine ⟨?_, hblanks, ?_⟩
  · show (commentsPass _ _ _ _).stop = o
    rw [hstop, hblanks]
  · rwa [hblanks] at hnothing

/-- Where skipping ends there is nothing left to skip. -/
theorem ignoredRound_ignoredWithin (ho : o ≤ t.size) (hfuel : t.size - o < fuel) :
    (ignoredRound t cs (ignoredWithin t cs fuel o).1).found = false := by
  induction fuel generalizing o with
  | zero => omega
  | succ fuel ih =>
    rw [ignoredWithin]
    dsimp only
    split
    · next hfound =>
      have hlt := lt_ignoredRound_stop ho hfound
      have hle := (ignoredRound_linked ho cs).stop_le
      exact ih hle (by omega)
    · next hfound =>
      have hfound : (ignoredRound t cs o).found = false := by simpa using hfound
      rw [(ignoredRound_of_not_found ho hfound).1, hfound]

theorem ignoredLooks_ignoredLooks (ho : o ≤ t.size) (cs : List Comment) :
    (ignoredLooks t cs (ignoredLooks t cs o).1).1 = (ignoredLooks t cs o).1 := by
  have hfound : (ignoredRound t cs (ignoredLooks t cs o).1).found = false :=
    ignoredRound_ignoredWithin ho (by omega)
  have hsize := (ignoredLooks_linked ho cs).stop_le
  show (ignoredWithin t cs (t.size + 1 + 1) (ignoredLooks t cs o).1).1 = _
  rw [ignoredWithin]
  dsimp only
  rw [if_neg (by rw [hfound]; decide)]
  exact (ignoredRound_of_not_found hsize hfound).1

/-! ### Rounds without a bound -/

/-- Skipping goes on until a round finds nothing, however many rounds that takes; it leads from `o` and
the footprint `f` to the offset and the footprint behind the last round. -/
inductive Skips (t : Text) (cs : List Comment) : Nat → Footprint → Nat → Footprint → Prop
  | last {o stop : Nat} {f f' : Footprint} :
      comments t cs (t.scanWhile Byte.isBlank o != o) (t.scanWhile Byte.isBlank o)
        (f.note (blanks t o)) = some (false, stop, f') →
      Skips t cs o f stop f'
  | again {o m stop : Nat} {f f' f'' : Footprint} :
      comments t cs (t.scanWhile Byte.isBlank o != o) (t.scanWhile Byte.isBlank o)
        (f.note (blanks t o)) = some (true, m, f') →
      Skips t cs m f' stop f'' → Skips t cs o f stop f''

/-- The rounds come to an end before they are used up. -/
theorem skips_ignoredWithin (ho : o ≤ t.size) (hfuel : t.size - o < fuel) (f : Footprint) :
    Skips t cs o f (ignoredWithin t cs fuel o).1
      ((ignoredWithin t cs fuel o).2.foldl Footprint.note f) := by
  induction fuel generalizing o f with
  | zero => omega
  | succ fuel ih =>
    have hround := comments_round ho cs f
    rw [ignoredWithin]
    dsimp only
    cases hfound : (ignoredRound t cs o).found with
    | true =>
      rw [hfound] at hround
      have hlt := lt_ignoredRound_stop ho hfound
      have hle := (ignoredRound_linked ho cs).stop_le
      rw [if_pos rfl, List.foldl_append]
      exact .again hround (ih hle (by omega) _)
    | false =>
      rw [hfound] at hround
      rw [if_neg (by decide)]
      exact .last hround

/-- **Skipping reaches a fixed point.** From every offset of a text the rounds come to an end, at an
offset of the text that no white space stands at and no comment is accepted at.  What is skipped is white
space and accepted comments, one behind the other; and skipping from there on stays there. -/
theorem ignored_settles (ho : o ≤ t.size) (cs : List Comment) (f : Footprint) :
    ∃ r f', ignored t cs o f = some (r, f') ∧ Skips t cs o f r f' ∧ o ≤ r ∧ r ≤ t.size
      ∧ (∀ b, t[r]? = some b → b ∉ [Byte.blank, Byte.tab, Byte.cr, Byte.newline])
      ∧ (∀ c ∈ cs, (comment t c r).reach = .nothing)
      ∧ Ignorable t cs o r
      ∧ ∀ g, ∃ g', ignored t cs r g = some (r, g') := by
  have hlinked := ignoredLooks_linked ho cs
  have hsize := hlinked.stop_le
  have hfound : (ignoredRound t cs (ignoredLooks t cs o).1).found = false :=
    ignoredRound_ignoredWithin ho (by omega)
  obtain ⟨-, hblanks, hnothing⟩ := ignoredRound_of_not_found hsize hfound
  refine ⟨_, _, ignored_eq ho cs f, skips_ignoredWithin ho (by omega) f, hlinked.le_stop, hsize,
    fun b hb hmem => ?_, hnothing, ignoredWithin_ignorable,
    fun g => ⟨(ignoredLooks t cs (ignoredLooks t cs o).1).2.foldl Footprint.note g, ?_⟩⟩
  · have hblank : Byte.isBlank b = true := by
      simp only [List.mem_cons, List.not_mem_nil, or_false] at hmem
      obtain rfl | rfl | rfl | rfl := hmem <;> decide
    rw [← hblanks] at hb
    rw [Text.not_inside_scanWhile hb] at hblank
    cases hblank
  · exact (ignored_eq hsize cs g).trans (by rw [ignoredLooks_ignoredLooks ho])

/-- A comment that can be empty, and one that runs up to the end of the line. -/
def emptyableComments : List Comment := ["a*", "#.*"].filterMap fun source => Comment.read? (Bytes.ascii source)

/-- In "aa #b\n aac" skipping ends at the last letter, where the first comment would match nothing but the
empty text. -/
theorem ignored_emptyableComments :
    emptyableComments.length = 2 ∧ 0 ≤ (Bytes.ascii "aa #b\n aac").toArray.size
      ∧ ∃ f, ignored (Bytes.ascii "aa #b\n aac").toArray emptyableComments 0 .empty = some (9, f)
        ∧ Ignorable (Bytes.ascii "aa #b\n aac").toArray emptyableComments 0 9
        ∧ ∀ c ∈ emptyableComments,
          (comment (Bytes.ascii "aa #b\n aac").toArray c 9).reach = .nothing := by
  obtain ⟨r, f, hignored, -, -, -, -, hnothing, hskipped, -⟩ := ignored_settles
    (t := (Bytes.ascii "aa #b\n aac").toArray) (Nat.zero_le _) emptyableComments .empty
  have hend : (ignored (Bytes.ascii "aa #b\n aac").toArray emptyableComments 0 .empty).map Prod.fst
      = some 9 := by decide +kernel
  obtain rfl : r = 9 := by simpa [hignored] using hend
  exact ⟨by decide, by decide, f, hignored, hskipped, hnothing⟩

end Scan

end Packrat
