import Packrat.Proofs.Regex.Reading
import Packrat.Proofs.Text.Agreement

/-!
Matching plain text and runs of bytes.

An expression that begins with plain text has to find that text (`Regex.run_literals`).  A class that is
repeated as often as possible ends where the class ends (`Regex.iterate_greedy`), and one that is repeated
as rarely as possible ends where what follows stands first (`Regex.iterate_short`).  That gives the match of
an expression that is plain text with at most one run in it, as a search in the text
(`Regex.matchFrom_literals`, `Regex.matchFrom_greedy`, `Regex.matchFrom_short`).

A loop counter only counts the laps since the last byte.  A class takes a byte in every lap, so the counters
are reset each time and never end a run.
-/

namespace Packrat

namespace Text

variable {t : Text} {inside : UInt8 → Bool} {o : Nat}

theorem scanWhile_of_inside {b : UInt8} (hb : t[o]? = some b) (h : inside b) :
    t.scanWhile inside o = t.scanWhile inside (o + 1) := by
  obtain ⟨hlt, rfl⟩ := Array.getElem?_eq_some_iff.mp hb
  rw [scanWhile, dif_pos hlt, if_pos h]

theorem scanWhile_of_not_inside (h : ∀ b ∈ t[o]?, ¬ inside b) : t.scanWhile inside o = o := by
  rw [scanWhile]
  split
  · next hlt => rw [if_neg (h _ (Array.getElem?_eq_getElem hlt))]
  · rfl

theorem scanWhile_of_size_le (inside : UInt8 → Bool) (h : t.size ≤ o) : t.scanWhile inside o = o := by
  rw [scanWhile, dif_neg (Nat.not_lt.mpr h)]

end Text

namespace Regex

/-! ### Plain text -/

/-- Whether a text stands at a place of a window. -/
def Window.shows (w : Window) : Bytes → Nat → Bool
  | [], _ => true
  | b :: bs, pos => w.byte? pos == some b && w.shows bs (pos + 1)

variable {w : Window} {text : Bytes} {b : UInt8} {pos base id fuel : Nat} {r f : Regex} {s u : Spot}
  {k : Rest} {c : ByteClass}

theorem Window.byte?_eq_some (h : w.byte? pos = some b) : w.text[pos]? = some b := by
  unfold Window.byte? at h
  split at h
  · exact h
  · cases h

/-- A window up to the end of the text shows all that is left of it. -/
theorem Window.byte?_eq (hstop : w.stop = w.text.size) (pos : Nat) : w.byte? pos = w.text[pos]? := by
  unfold Window.byte?
  split
  · rfl
  · exact (Array.getElem?_eq_none (by omega)).symm

theorem Window.startsAt_of_shows (h : w.shows text pos) : w.text.startsAt text pos := by
  induction text generalizing pos with
  | nil => rfl
  | cons b bs ih =>
    rw [Window.shows, Bool.and_eq_true, beq_iff_eq] at h
    rw [Text.startsAt, Window.byte?_eq_some h.1, ih h.2, beq_self_eq_true, Bool.and_self]

theorem Window.shows_eq (hstop : w.stop = w.text.size) (text : Bytes) (pos : Nat) :
    w.shows text pos = w.text.startsAt text pos := by
  induction text generalizing pos with
  | nil => rfl
  | cons b bs ih => rw [Window.shows, Text.startsAt, Window.byte?_eq hstop, ih]

theorem Window.shows_concat (htext : w.shows text pos) (hb : w.byte? (pos + text.length) = some b) :
    w.shows (text ++ [b]) pos := by
  induction text generalizing pos with
  | nil => simpa [Window.shows] using hb
  | cons c text ih =>
    rw [Window.shows, Bool.and_eq_true] at htext
    rw [List.cons_append, Window.shows, htext.1, Bool.true_and]
    exact ih htext.2 (by rw [← hb, List.length_cons]; congr 1; omega)

theorem advance_self (hs : s.laps = []) : s.advance s.pos = s := by
  rw [Spot.advance, ← hs]

/-- Plain text has to be found, and then the rest is matched behind it. -/
theorem run_literals (w : Window) (text : Bytes) (r : Regex) (base : Nat) (k : Rest) (hs : s.laps = []) :
    run w (literals text r) base s k
      = if w.shows text s.pos then run w r base (s.advance (s.pos + text.length)) k
        else .error s.groups := by
  induction text generalizing s with
  | nil =>
    rw [literals_nil, Window.shows, if_pos rfl, List.length_nil, Nat.add_zero, advance_self hs]
  | cons b text ih =>
    rw [literals_cons, run, run, Window.shows]
    cases hbyte : w.byte? s.pos with
    | none => rfl
    | some b' =>
      by_cases hb : b' = b
      · subst hb
        have haccepts : (ByteClass.exactly b').accepts b' := beq_self_eq_true b'
        have hadvance : (s.advance (s.pos + 1)).advance ((s.advance (s.pos + 1)).pos + text.length)
            = s.advance (s.pos + (b' :: text).length) := by
          rw [List.length_cons, Nat.add_comm text.length, ← Nat.add_assoc]
          rfl
        dsimp only
        rw [if_pos haccepts, beq_self_eq_true, Bool.true_and, ← hadvance]
        exact ih rfl
      · have haccepts : ¬ (ByteClass.exactly b).accepts b' := by simpa [ByteClass.accepts] using hb
        have hne : (some b' == some b) = false := by simpa using hb
        dsimp only
        rw [if_neg haccepts, hne, Bool.false_and]
        rfl

/-! ### Runs -/

/-- A lap of a class. -/
def bodyOf (w : Window) (c : ByteClass) (base : Nat) : Spot → Rest → Found :=
  fun s k => run w (.byte c) base s k

/-- One lap takes a byte of the class. -/
theorem bodyOf_of_accepts (hbyte : w.byte? s.pos = some b) (hc : c.accepts b) (base : Nat) (k : Rest) :
    bodyOf w c base s k = k (s.advance (s.pos + 1)) := by
  simp only [bodyOf, run, hbyte, hc, if_true]

theorem bodyOf_of_not_accepts (h : ∀ b ∈ w.byte? s.pos, ¬ c.accepts b) (base : Nat) (k : Rest) :
    bodyOf w c base s k = .error s.groups := by
  unfold bodyOf
  rw [run]
  cases hbyte : w.byte? s.pos with
  | none => rfl
  | some b => exact if_neg (h b hbyte)

/-- A byte of the class is next, or none is. -/
theorem Window.accepts_or (w : Window) (c : ByteClass) (pos : Nat) :
    (∃ b, w.byte? pos = some b ∧ c.accepts b) ∨ ∀ b ∈ w.byte? pos, ¬ c.accepts b :=
  or_iff_not_imp_left.mpr fun h b hb hc => h ⟨b, hb, hc⟩

/-- A class does not look at the counters. -/
theorem bodyOf_laps (w : Window) (c : ByteClass) (base : Nat) (s : Spot) (laps : List Nat) (k : Rest) :
    bodyOf w c base { s with laps } k = bodyOf w c base s k := by
  rcases w.accepts_or c s.pos with ⟨b, hbyte, hc⟩ | hnot
  · rw [bodyOf_of_accepts (s := s) hbyte hc]
    exact bodyOf_of_accepts hbyte hc base k
  · rw [bodyOf_of_not_accepts (s := s) hnot]
    exact bodyOf_of_not_accepts hnot base k

theorem iterate_succ_greedy (w : Window) (c : ByteClass) (base id fuel : Nat) (k : Rest)
    (hs : s.laps = []) :
    iterate (bodyOf w c base) id false (fuel + 1) s k
      = either (bodyOf w c base s fun s => iterate (bodyOf w c base) id false fuel s k)
          fun g => k { s with groups := g } := by
  have hlaps : s.laps.count id < 2 := by rw [hs, List.count_nil]; omega
  rw [iterate, lap, if_neg Bool.false_ne_true]
  dsimp only
  rw [if_pos hlaps, bodyOf_laps]

theorem iterate_succ_short (w : Window) (c : ByteClass) (base id fuel : Nat) (k : Rest)
    (hs : s.laps = []) :
    iterate (bodyOf w c base) id true (fuel + 1) s k
      = either (k s) fun g =>
          bodyOf w c base { s with groups := g } fun s => iterate (bodyOf w c base) id true fuel s k := by
  have hlaps : s.laps.count id < 2 := by rw [hs, List.count_nil]; omega
  rw [iterate, lap, if_pos rfl]
  refine congrArg (either (k s)) (funext fun g => ?_)
  dsimp only
  rw [if_pos hlaps]
  exact bodyOf_laps w c base { s with groups := g } (id :: s.laps) _

/-- As many bytes of a class as there are. -/
theorem iterate_greedy (hstop : w.stop = w.text.size) (c : ByteClass) (base id : Nat) (hs : s.laps = [])
    (hfuel : w.text.size < s.pos + fuel) :
    iterate (bodyOf w c base) id false fuel s .ok = .ok (s.advance (w.text.scanWhile c.accepts s.pos)) := by
  induction fuel generalizing s with
  | zero =>
    rw [Text.scanWhile_of_size_le c.accepts (by omega), advance_self hs]
    rfl
  | succ fuel ih =>
    rw [iterate_succ_greedy w c base id fuel _ hs]
    rcases w.accepts_or c s.pos with ⟨b, hbyte, hc⟩ | hnot
    · rw [bodyOf_of_accepts hbyte hc, Text.scanWhile_of_inside (Window.byte?_eq_some hbyte) hc,
        ih rfl (by simp only [Spot.advance]; omega)]
      rfl
    · rw [bodyOf_of_not_accepts hnot]
      rw [Window.byte?_eq hstop] at hnot
      rw [Text.scanWhile_of_not_inside hnot, advance_self hs]
      rfl

/-- A run that ends where it is said, if anywhere. -/
def Spot.ending (s : Spot) : Option Nat → Found
  | some stop => .ok (s.advance stop)
  | none => .error s.groups

/-- As few bytes of a class as possible, in front of a text. -/
theorem iterate_short (hstop : w.stop = w.text.size) (c : ByteClass) (base id : Nat) (hs : s.laps = [])
    (hfuel : w.text.size < s.pos + fuel)
    (hk : ∀ s : Spot, s.laps = [] → k s = if w.text.startsAt text s.pos
      then .ok (s.advance (s.pos + text.length)) else .error s.groups) :
    iterate (bodyOf w c base) id true fuel s k
      = s.ending ((w.text.findWithin text (w.text.scanWhile c.accepts s.pos + 1 - s.pos) s.pos).map
          (· + text.length)) := by
  induction fuel generalizing s with
  | zero =>
    rw [Text.scanWhile_of_size_le c.accepts (by omega), Nat.add_sub_cancel_left, iterate, hk s hs]
    simp only [Text.findWithin]
    split <;> rfl
  | succ fuel ih =>
    have hle := Text.le_scanWhile w.text c.accepts s.pos
    obtain ⟨n, hn⟩ : ∃ n, w.text.scanWhile c.accepts s.pos + 1 - s.pos = n + 1 :=
      ⟨w.text.scanWhile c.accepts s.pos - s.pos, by omega⟩
    rw [iterate_succ_short w c base id fuel _ hs, hk s hs, hn, Text.findWithin]
    by_cases hstarts : w.text.startsAt text s.pos
    · rw [if_pos hstarts, if_pos hstarts]
      rfl
    rw [if_neg hstarts, if_neg hstarts]
    rcases w.accepts_or c s.pos with ⟨b, hbyte, hc⟩ | hnot
    · rw [Text.scanWhile_of_inside (Window.byte?_eq_some hbyte) hc] at hn
      have hrest := ih (s := s.advance (s.pos + 1)) rfl (by simp only [Spot.advance]; omega)
      rw [show (s.advance (s.pos + 1)).pos = s.pos + 1 from rfl,
        show w.text.scanWhile c.accepts (s.pos + 1) + 1 - (s.pos + 1) = n by omega] at hrest
      exact (bodyOf_of_accepts hbyte hc base _).trans hrest
    · refine (bodyOf_of_not_accepts hnot base _).trans ?_
      rw [Window.byte?_eq hstop] at hnot
      rw [Text.scanWhile_of_not_inside hnot] at hn
      obtain rfl : n = 0 := by omega
      rfl

/-! ### Matches -/

/-- The window that shows all that is left of a text. -/
def Window.rest (t : Text) (o : Nat) : Window := { text := t, origin := o, stop := t.size }

theorem matchFrom_of_ending {stop : Option Nat} (h : r.run w 0 (w.spot r) .ok = s.ending stop) :
    r.matchFrom w = stop := by
  rw [matchFrom, h]
  cases stop <;> rfl

theorem run_star (w : Window) (c : ByteClass) (short : Bool) (r : Regex) (s : Spot) (k : Rest) :
    run w (.seq (.repeated (.byte c) .star short) r) 0 s k
      = iterate (bodyOf w c 1) 0 short (w.laps s) s fun s => run w r 1 s k := rfl

theorem lt_laps (w : Window) (s : Spot) : w.stop < s.pos + w.laps s := by
  unfold Window.laps
  omega

/-- What begins with plain text matches where the text stands, up to the end that the rest has behind it. -/
theorem matchFrom_literals_rest {t : Text} {o : Nat} {stop : Option Nat}
    (h : ∀ s : Spot, s.pos = o + text.length → s.laps = [] →
      run (.rest t o) r 0 s .ok = s.ending stop) :
    (literals text r).matchFrom (.rest t o) = if t.startsAt text o then stop else none := by
  have hrun := run_literals (.rest t o) text r 0 .ok (s := (Window.rest t o).spot (literals text r)) rfl
  rw [Window.shows_eq rfl] at hrun
  split
  · next hstarts => exact matchFrom_of_ending (hrun.trans ((if_pos hstarts).trans (h _ rfl rfl)))
  · next hstarts => exact matchFrom_of_ending (hrun.trans (if_neg hstarts))

/-- Plain text matches where it stands. -/
theorem matchFrom_literals (t : Text) (o : Nat) (text : Bytes) :
    (literals text .empty).matchFrom (.rest t o)
      = if t.startsAt text o then some (o + text.length) else none :=
  matchFrom_literals_rest fun s hpos hs => by
    rw [Spot.ending, ← hpos, advance_self hs]
    rfl

/-- Plain text and a greedy run match up to the end of the run. -/
theorem matchFrom_greedy (t : Text) (o : Nat) (text : Bytes) (c : ByteClass) :
    (literals text (.seq (.repeated (.byte c) .star false) .empty)).matchFrom (.rest t o)
      = if t.startsAt text o then some (t.scanWhile c.accepts (o + text.length)) else none :=
  matchFrom_literals_rest fun s hpos hs => by
    rw [run_star, ← hpos]
    exact iterate_greedy rfl c 1 0 hs (lt_laps (.rest t o) s)

/-- Plain text, a short run and a terminator match up to the end of the first terminator that the run
reaches. -/
theorem matchFrom_short (t : Text) (o : Nat) (text : Bytes) (c : ByteClass) (terminator : Bytes) :
    (literals text (.seq (.repeated (.byte c) .star true) (literals terminator .empty))).matchFrom
        (.rest t o)
      = if t.startsAt text o then
          (t.findWithin terminator (t.scanWhile c.accepts (o + text.length) + 1 - (o + text.length))
            (o + text.length)).map (· + terminator.length)
        else none :=
  matchFrom_literals_rest fun s hpos hs => by
    rw [run_star, ← hpos]
    refine iterate_short rfl c 1 0 hs (lt_laps (.rest t o) s) fun s hs => ?_
    rw [run_literals _ _ _ _ _ hs, Window.shows_eq rfl]
    rfl

/-! ### Bytes that have to occur -/

/-- Whether an expression is a repetition that may be left out altogether. -/
def isOptional : Regex → Bool
  | .repeated _ .star _ | .repeated _ .option _ | .repeated _ (.times 0 _) _ => true
  | .repeated r _ _ => r.isOptional
  | _ => false

/-- The factor of a sequence with a number. -/
def factor? : Regex → Nat → Option Regex
  | .seq r _, 0 => some r
  | .seq _ s, n + 1 => s.factor? n
  | _, _ => none

theorem factor?_literals (text : Bytes) (f r : Regex) :
    (literals text (.seq f r)).factor? text.length = some f := by
  induction text with
  | nil => rfl
  | cons b text ih => exact ih

/-- A byte with quantifiers that do not let it be left out has to be found. -/
theorem Quantified.byte?_eq_some (hf : Quantified b f) (hneeded : ¬ f.isOptional)
    (h : run w f base s k = .ok u) : w.byte? s.pos = some b := by
  induction hf generalizing base s k with
  | byte =>
    rw [run] at h
    cases hbyte : w.byte? s.pos with
    | none =>
      rw [hbyte] at h
      cases h
    | some b' =>
      rw [hbyte] at h
      dsimp only at h
      split at h
      · next hb => rw [beq_iff_eq.mp hb]
      · cases h
  | @repeated r q short _ ih =>
    match q with
    | .star | .option => exact absurd rfl hneeded
    | .times 0 extra => exact absurd rfl hneeded
    | .plus => exact ih hneeded h
    | .times (least + 1) none => exact ih hneeded h
    | .times (least + 1) (some extra) => exact ih hneeded h

/-- An expression that begins with plain text, and then with a byte that has to occur, only matches where the
text and the byte stand. -/
theorem startsAt_of_run (hf : Quantified b f) (hneeded : ¬ f.isOptional) (hs : s.laps = [])
    (h : run w (literals text (.seq f r)) base s k = .ok u) : w.text.startsAt (text ++ [b]) s.pos := by
  rw [run_literals _ _ _ _ _ hs] at h
  split at h
  · next hshows =>
    rw [run] at h
    exact Window.startsAt_of_shows (Window.shows_concat hshows (hf.byte?_eq_some hneeded h))
  · cases h

end Regex

end Packrat
