import Packrat.Proofs.Scan.Comments

/-!
Ignored text.

Since a comment moves on, skipping ignored text ends by itself and not because it runs out of rounds
(`Scan.ignoredWithin_eq_of_lt`).  What it has examined is a list of looks, each taken where the one
before has ended (`Scan.ignoredLooks`, `Scan.Linked`); skipping adds them to the footprint in this
order (`Scan.ignored_eq`).

Main statement: where all these looks show the same, the same text is ignored
(`Scan.ignoredLooks_moved`).
-/

namespace Packrat

namespace Scan

variable {t t' : Text} {o o' : Nat}

/-! ### Looks taken one behind the other -/

/-- Looks that lead from `o` to `stop`, each taken where the one before has ended. -/
inductive Linked (t : Text) : Nat → List Look → Nat → Prop
  | nil {o : Nat} : o ≤ t.size → Linked t o [] o
  | cons {o m stop : Nat} {l : Look} {looks : List Look} : l.Inside t o → o ≤ m → m ≤ l.stop →
      Linked t m looks stop → Linked t o (l :: looks) stop

namespace Linked

variable {stop : Nat} {looks : List Look}

theorem stop_le (h : Linked t o looks stop) : stop ≤ t.size := by
  induction h with
  | nil ho => exact ho
  | cons _ _ _ _ ih => exact ih

theorem le_stop (h : Linked t o looks stop) : o ≤ stop := by
  induction h with
  | nil => exact Nat.le_refl _
  | cons _ hm _ _ ih => exact Nat.le_trans hm ih

theorem append {m : Nat} {more : List Look} (h : Linked t o looks m) (h' : Linked t m more stop) :
    Linked t o (looks ++ more) stop := by
  induction h with
  | nil => exact h'
  | cons hl hm hle _ ih => exact .cons hl hm hle (ih h')

/-- Every look starts behind the place where the first one does, and stays inside the text. -/
theorem inside (h : Linked t o looks stop) {l : Look} (hl : l ∈ looks) :
    o ≤ l.start ∧ l.Inside t l.start := by
  induction h with
  | nil => cases hl
  | cons hin hm _ _ ih =>
    rcases List.mem_cons.1 hl with rfl | hl
    · rw [hin.start]
      exact ⟨Nat.le_refl _, hin⟩
    · exact ⟨Nat.le_trans hm (ih hl).1, (ih hl).2⟩

/-- Looks that lead from one offset to another one have covered what lies in between. -/
theorem covers (h : Linked t o looks stop) {x : Nat} (h₁ : o ≤ x) (h₂ : x < stop) :
    ∃ l ∈ looks, l.start ≤ x ∧ x < l.stop := by
  induction h with
  | nil => omega
  | @cons o m stop l looks hin hm hle _ ih =>
    rcases Nat.lt_or_ge x m with hlt | hge
    · exact ⟨l, by simp, by rw [hin.start]; exact h₁, by omega⟩
    · obtain ⟨l', hl', hx⟩ := ih hge h₂
      exact ⟨l', by simp [hl'], hx⟩

end Linked

/-- What a round of tries has found. -/
structure Pass where
  found : Bool
  stop : Nat
  looks : List Look

/-- A round of tries, taken from another place. -/
def Pass.moved (p : Pass) (o o' : Nat) : Pass :=
  ⟨p.found, o' + (p.stop - o), p.looks.map fun l => l.moved (o' + (l.start - o))⟩

/-- Puts a look in front of a round. -/
def Pass.behind (l : Look) (p : Pass) : Pass := { p with looks := l :: p.looks }

/-- The comments, each tried where the one before has ended. -/
def commentsPass (t : Text) : List Comment → (found : Bool) → (o : Nat) → Pass
  | [], found, o => ⟨found, o, []⟩
  | c :: cs, found, o =>
    let l := comment t c o
    .behind l <| match l.reach with
      | .upTo stop => commentsPass t cs true stop
      | _ => commentsPass t cs found o

theorem commentsPass_linked (ho : o ≤ t.size) (cs : List Comment) (found : Bool) :
    Linked t o (commentsPass t cs found o).looks (commentsPass t cs found o).stop := by
  induction cs generalizing found o with
  | nil => exact .nil ho
  | cons c cs ih =>
    have hmoves := comment_movesOn ho c
    rw [commentsPass]
    split
    · next m hm =>
      have := hmoves.upTo hm
      exact .cons hmoves.toInside this.1 this.2.2 (ih this.2.1 true)
    · exact .cons hmoves.toInside (Nat.le_refl o) hmoves.start_le (ih ho found)

/-- A round that has found something new has moved on. -/
theorem lt_commentsPass_stop (ho : o ≤ t.size) {cs : List Comment} {found : Bool}
    (h : (commentsPass t cs found o).found = true) :
    found = true ∨ o < (commentsPass t cs found o).stop := by
  induction cs generalizing found o with
  | nil => exact .inl h
  | cons c cs ih =>
    have hmoves := comment_movesOn ho c
    rw [commentsPass] at h ⊢
    split
    · next m hm =>
      have hlt := hmoves.lt hm
      have hle := (commentsPass_linked (hmoves.upTo hm).2.1 cs true).le_stop
      exact .inr (Nat.lt_of_lt_of_le hlt hle)
    · next hne =>
      split at h
      · next m hm => exact absurd hm (hne m)
      · exact ih ho h

theorem comments_eq (ho : o ≤ t.size) (cs : List Comment) (found : Bool) (f : Footprint) :
    comments t cs found o f = some ((commentsPass t cs found o).found,
      (commentsPass t cs found o).stop, (commentsPass t cs found o).looks.foldl Footprint.note f) := by
  induction cs generalizing found o f with
  | nil => rfl
  | cons c cs ih =>
    have hmoves := comment_movesOn ho c
    rw [comments, commentsPass]
    cases hreach : (comment t c o).reach with
    | upTo m => exact ih (hmoves.upTo hreach).2.1 true _
    | nothing => exact ih ho found _
    | beyond => exact absurd hreach hmoves.ne_beyond

theorem commentsPass_moved (ho : o ≤ t.size) (ho' : o' ≤ t'.size) {cs : List Comment}
    (hfits : ∀ c ∈ cs, c.FitsWindow) {found : Bool}
    (h : ∀ l ∈ (commentsPass t cs found o).looks,
      t.Agree t' l.start (o' + (l.start - o)) (l.stop - l.start)) :
    commentsPass t' cs found o' = (commentsPass t cs found o).moved o o' := by
  induction cs generalizing found o o' with
  | nil => simp [commentsPass, Pass.moved]
  | cons c cs ih =>
    have hmoves := comment_movesOn ho c
    have hstart : (comment t c o).start = o := hmoves.start
    have hmoved : comment t' c o' = (comment t c o).moved o' := by
      refine comment_moved ho ho' (hfits c (by simp)) ?_
      have := h (comment t c o) (by rw [commentsPass]; simp [Pass.behind])
      rwa [hstart, Nat.sub_self] at this
    have hmoves' := comment_movesOn ho' c
    rw [commentsPass] at h
    rw [commentsPass, commentsPass]
    rw [hmoved] at hmoves' ⊢
    -- the rest is tried from the corresponding place on
    have key : ∀ {m} (found : Bool), o ≤ m → m ≤ t.size → o' + (m - o) ≤ t'.size →
        (∀ l ∈ (commentsPass t cs found m).looks,
          t.Agree t' l.start (o' + (l.start - o)) (l.stop - l.start)) →
        commentsPass t' cs found (o' + (m - o)) = (commentsPass t cs found m).moved o o' := by
      intro m found hm hs hs' hagree
      have hlinked := commentsPass_linked hs cs found
      rw [ih hs hs' (fun c hc => hfits c (by simp [hc])) ?_]
      · have := hlinked.le_stop
        simp only [Pass.moved, Pass.mk.injEq, true_and]
        refine ⟨by omega, List.map_congr_left fun l hl => ?_⟩
        have := (hlinked.inside hl).1
        rw [show o' + (m - o) + (l.start - m) = o' + (l.start - o) by omega]
      · intro l hl
        have := (hlinked.inside hl).1
        rw [show o' + (m - o) + (l.start - m) = o' + (l.start - o) by omega]
        exact hagree l hl
    cases hreach : (comment t c o).reach with
    | upTo m =>
      have hm := hmoves.upTo hreach
      have hreach' : ((comment t c o).moved o').reach = .upTo (o' + (m - o)) := by
        simp only [Look.moved, hreach, hstart, Reach.moved]
      rw [hreach] at h
      dsimp only at h ⊢
      rw [hreach']
      dsimp only
      rw [key _ hm.1 hm.2.1 (hmoves'.upTo hreach').2.1 fun l hl => h l (by simp [Pass.behind, hl])]
      simp [Pass.behind, Pass.moved, hstart]
    | nothing =>
      have hreach' : ((comment t c o).moved o').reach = .nothing := by
        simp only [Look.moved, hreach, Reach.moved]
      rw [hreach] at h
      dsimp only at h ⊢
      rw [hreach']
      dsimp only
      have := key found (Nat.le_refl o) ho (by omega) fun l hl => h l (by simp [Pass.behind, hl])
      rw [show o' + (o - o) = o' by omega] at this
      rw [this]
      simp [Pass.behind, Pass.moved, hstart]
    | beyond => exact absurd hreach hmoves.ne_beyond

/-! ### Ignored text -/

/-- One round of skipping: white space, and the comments behind it. -/
def ignoredRound (t : Text) (cs : List Comment) (o : Nat) : Pass :=
  .behind (blanks t o) <|
    commentsPass t cs (t.scanWhile Byte.isBlank o != o) (t.scanWhile Byte.isBlank o)

/-- Where skipping ends, and the looks it takes; at most `fuel` rounds. -/
def ignoredWithin (t : Text) (cs : List Comment) : (fuel o : Nat) → Nat × List Look
  | 0, o => (o, [])
  | fuel + 1, o =>
    let p := ignoredRound t cs o
    if p.found then
      let rest := ignoredWithin t cs fuel p.stop
      (rest.1, p.looks ++ rest.2)
    else (p.stop, p.looks)

/-- Where skipping ends, and the looks it takes. -/
def ignoredLooks (t : Text) (cs : List Comment) (o : Nat) : Nat × List Look :=
  ignoredWithin t cs (t.size + 2) o

theorem ignoredRound_linked (ho : o ≤ t.size) (cs : List Comment) :
    Linked t o (ignoredRound t cs o).looks (ignoredRound t cs o).stop := by
  have hin := blanks_inside ho
  obtain ⟨h₁, h₂, h₃⟩ := hin.upTo rfl
  exact .cons hin h₁ h₃ (commentsPass_linked h₂ cs _)

/-- A round that has found something has moved on. -/
theorem lt_ignoredRound_stop (ho : o ≤ t.size) {cs : List Comment}
    (h : (ignoredRound t cs o).found = true) : o < (ignoredRound t cs o).stop := by
  have h₁ := Text.le_scanWhile t Byte.isBlank o
  have h₂ := Text.scanWhile_le t Byte.isBlank ho
  have hle := (commentsPass_linked h₂ cs (t.scanWhile Byte.isBlank o != o)).le_stop
  have hlt : o < (commentsPass t cs (t.scanWhile Byte.isBlank o != o)
      (t.scanWhile Byte.isBlank o)).stop := by
    rcases lt_commentsPass_stop h₂ h with hmoved | hlt
    · simp only [bne_iff_ne, ne_eq] at hmoved
      omega
    · omega
  exact hlt

/-- Skipping ends by itself: the number of rounds does not matter, if it exceeds the number of bytes
that are left. -/
theorem ignoredWithin_eq_of_lt {fuel fuel' : Nat} (ho : o ≤ t.size) (cs : List Comment)
    (h : t.size - o < fuel) (h' : t.size - o < fuel') :
    ignoredWithin t cs fuel o = ignoredWithin t cs fuel' o := by
  induction fuel generalizing fuel' o with
  | zero => omega
  | succ fuel ih =>
    obtain ⟨fuel', rfl⟩ : ∃ k, fuel' = k + 1 := ⟨fuel' - 1, by omega⟩
    rw [ignoredWithin, ignoredWithin]
    dsimp only
    split
    · next hfound =>
      have hlt := lt_ignoredRound_stop ho hfound
      have hs := (ignoredRound_linked ho cs).stop_le
      rw [ih hs (by omega) (by omega : _ < fuel')]
    · rfl

theorem ignoredWithin_linked (fuel : Nat) (ho : o ≤ t.size) (cs : List Comment) :
    Linked t o (ignoredWithin t cs fuel o).2 (ignoredWithin t cs fuel o).1 := by
  induction fuel generalizing o with
  | zero => exact .nil ho
  | succ fuel ih =>
    rw [ignoredWithin]
    dsimp only
    have hround := ignoredRound_linked ho cs
    split
    · exact hround.append (ih hround.stop_le)
    · exact hround

theorem ignoredLooks_linked (ho : o ≤ t.size) (cs : List Comment) :
    Linked t o (ignoredLooks t cs o).2 (ignoredLooks t cs o).1 :=
  ignoredWithin_linked _ ho cs

/-- What comes out of one round. -/
theorem comments_round (ho : o ≤ t.size) (cs : List Comment) (f : Footprint) :
    comments t cs (t.scanWhile Byte.isBlank o != o) (t.scanWhile Byte.isBlank o) (f.note (blanks t o))
      = some ((ignoredRound t cs o).found, (ignoredRound t cs o).stop,
          (ignoredRound t cs o).looks.foldl Footprint.note f) :=
  comments_eq (Text.scanWhile_le t Byte.isBlank ho) cs _ _

theorem ignoredFrom_eq {fuel : Nat} (ho : o ≤ t.size) (cs : List Comment) (f : Footprint) :
    ignoredFrom t cs fuel o f = some ((ignoredWithin t cs fuel o).1,
      (ignoredWithin t cs fuel o).2.foldl Footprint.note f) := by
  induction fuel generalizing o f with
  | zero => rfl
  | succ fuel ih =>
    have hround := ignoredRound_linked ho cs
    rw [ignoredFrom, ignoredWithin]
    dsimp only
    rw [comments_round ho]
    simp only [Option.bind_eq_bind, Option.bind_some]
    split
    · rw [ih hround.stop_le, List.foldl_append]
    · rfl

/-- Skipping takes its looks in order and adds them to the footprint. -/
theorem ignored_eq (ho : o ≤ t.size) (cs : List Comment) (f : Footprint) :
    ignored t cs o f
      = some ((ignoredLooks t cs o).1, (ignoredLooks t cs o).2.foldl Footprint.note f) :=
  ignoredFrom_eq ho cs f

theorem ignoredRound_moved (ho : o ≤ t.size) (ho' : o' ≤ t'.size) {cs : List Comment}
    (hfits : ∀ c ∈ cs, c.FitsWindow)
    (h : ∀ l ∈ (ignoredRound t cs o).looks,
      t.Agree t' l.start (o' + (l.start - o)) (l.stop - l.start)) :
    ignoredRound t' cs o' = (ignoredRound t cs o).moved o o' := by
  have hblanks : blanks t' o' = (blanks t o).moved o' := by
    refine blanks_moved ho ho' ?_
    have := h (blanks t o) (by simp [ignoredRound, Pass.behind])
    rwa [show (blanks t o).start = o from rfl, Nat.sub_self] at this
  have hin := blanks_inside ho
  have hin' := blanks_inside ho'
  obtain ⟨h₁, h₂, -⟩ := hin.upTo rfl
  have hscan : t'.scanWhile Byte.isBlank o' = o' + (t.scanWhile Byte.isBlank o - o) := by
    have := congrArg Look.reach hblanks
    exact Reach.upTo.inj this
  have hs' := (hin'.upTo rfl).2.1
  have hlinked := commentsPass_linked h₂ cs (t.scanWhile Byte.isBlank o != o)
  have hplace : ∀ l ∈ (commentsPass t cs (t.scanWhile Byte.isBlank o != o)
      (t.scanWhile Byte.isBlank o)).looks,
      o' + (t.scanWhile Byte.isBlank o - o) + (l.start - t.scanWhile Byte.isBlank o)
        = o' + (l.start - o) := by
    intro l hl
    have := (hlinked.inside hl).1
    omega
  have hs₂ : o' + (t.scanWhile Byte.isBlank o - o) ≤ t'.size := by rw [← hscan]; exact hs'
  have hpass := commentsPass_moved h₂ hs₂ hfits fun l hl => by
    rw [hplace l hl]
    exact h l (by simp [ignoredRound, Pass.behind, hl])
  have hfound : (o' + (t.scanWhile Byte.isBlank o - o) != o')
      = (t.scanWhile Byte.isBlank o != o) := by
    by_cases he : t.scanWhile Byte.isBlank o = o
    · simp [he]
    · rw [bne_iff_ne.2 he, bne_iff_ne.2 (by omega)]
  unfold ignoredRound
  rw [hblanks, hscan, hfound, hpass]
  have := hlinked.le_stop
  simp only [Pass.behind, Pass.moved, List.map_cons, Pass.mk.injEq, List.cons.injEq, true_and]
  refine ⟨by omega, by rw [show (blanks t o).start = o from rfl, Nat.sub_self, Nat.add_zero],
    List.map_congr_left fun l hl => ?_⟩
  rw [hplace l hl]

theorem ignoredWithin_moved {fuel : Nat} (ho : o ≤ t.size) (ho' : o' ≤ t'.size)
    {cs : List Comment} (hfits : ∀ c ∈ cs, c.FitsWindow)
    (h : ∀ l ∈ (ignoredWithin t cs fuel o).2,
      t.Agree t' l.start (o' + (l.start - o)) (l.stop - l.start)) :
    ignoredWithin t' cs fuel o' = (o' + ((ignoredWithin t cs fuel o).1 - o),
      (ignoredWithin t cs fuel o).2.map fun l => l.moved (o' + (l.start - o))) := by
  induction fuel generalizing o o' with
  | zero => simp [ignoredWithin]
  | succ fuel ih =>
    have hlinked := ignoredRound_linked ho cs
    have hle := hlinked.le_stop
    rw [ignoredWithin] at h
    rw [ignoredWithin, ignoredWithin]
    dsimp only at h ⊢
    by_cases hfound : (ignoredRound t cs o).found = true
    · rw [if_pos hfound] at h
      have hround := ignoredRound_moved ho ho' hfits fun l hl => h l (by simp [hl])
      have hs' := (ignoredRound_linked ho' cs).stop_le
      rw [hround] at hs' ⊢
      rw [if_pos hfound, if_pos (show ((ignoredRound t cs o).moved o o').found = true from hfound)]
      simp only [Pass.moved] at hs' ⊢
      have hrest := ignoredWithin_linked fuel hlinked.stop_le cs
      have hplace : ∀ l ∈ (ignoredWithin t cs fuel (ignoredRound t cs o).stop).2,
          o' + ((ignoredRound t cs o).stop - o) + (l.start - (ignoredRound t cs o).stop)
            = o' + (l.start - o) := by
        intro l hl
        have := (hrest.inside hl).1
        omega
      rw [ih hlinked.stop_le hs' fun l hl => by rw [hplace l hl]; exact h l (by simp [hl])]
      have := hrest.le_stop
      simp only [List.map_append, Prod.mk.injEq]
      refine ⟨by omega, ?_⟩
      congr 1
      exact List.map_congr_left fun l hl => by rw [hplace l hl]
    · rw [if_neg hfound] at h
      have hround := ignoredRound_moved ho ho' hfits h
      rw [hround, if_neg hfound,
        if_neg (show ¬((ignoredRound t cs o).moved o o').found = true from hfound)]
      rfl

/-- The same text is ignored where everything that was looked at shows the same. -/
theorem ignoredLooks_moved (ho : o ≤ t.size) (ho' : o' ≤ t'.size) {cs : List Comment}
    (hfits : ∀ c ∈ cs, c.FitsWindow)
    (h : ∀ l ∈ (ignoredLooks t cs o).2,
      t.Agree t' l.start (o' + (l.start - o)) (l.stop - l.start)) :
    ignoredLooks t' cs o' = (o' + ((ignoredLooks t cs o).1 - o),
      (ignoredLooks t cs o).2.map fun l => l.moved (o' + (l.start - o))) := by
  -- the texts may allow a different number of rounds; both allow more than are needed
  have hmore : ignoredLooks t cs o = ignoredWithin t cs (t.size + t'.size + 2) o :=
    ignoredWithin_eq_of_lt ho cs (by omega) (by omega)
  have hmore' : ignoredLooks t' cs o' = ignoredWithin t' cs (t.size + t'.size + 2) o' :=
    ignoredWithin_eq_of_lt ho' cs (by omega) (by omega)
  rw [hmore] at h
  rw [hmore, hmore', ignoredWithin_moved ho ho' hfits h]

end Scan

end Packrat
