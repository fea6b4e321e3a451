import Packrat.Regex.Match
import Packrat.Proofs.Text.Agreement

/-!
A match sees its window and nothing else.

Two windows are alike if the `n` bytes from `a` on in the one are the `n` bytes from `b` on in the
other, and if both are cut or none is (`Regex.Alike`).  Main statement: on such windows an expression
matches equally far (`Regex.matchFrom_alike`).

The search hands places to a continuation, so the statement is carried through it as a relation
between places, between results and between continuations; the expression is followed by induction.
As a window is alike to itself, the same induction says that a match stays inside its window
(`Regex.matchFrom_mem`).
-/

namespace Packrat

namespace Regex

section Relations

variable (a b n : Nat)

/-- The same place, counted from `a` in the one text and from `b` in the other. -/
def SamePlace (p p' : Nat) : Prop := ∃ k ≤ n, p = a + k ∧ p' = b + k

/-- Windows that show the same `n` bytes, from `a` and from `b` on. -/
structure Alike (w w' : Window) : Prop where
  stop : w.stop = a + n
  stop' : w'.stop = b + n
  le_size : a + n ≤ w.text.size
  agree : w.text.Agree w'.text a b n
  origin : SamePlace a b n w.origin w'.origin
  cut : w'.cut = w.cut

/-- The same span of a group. -/
def SameSpan (x y : Nat × Nat) : Prop := SamePlace a b n x.1 y.1 ∧ SamePlace a b n x.2 y.2

/-- Groups that have matched the same spans. -/
def SameGroups (g g' : Groups) : Prop :=
  g.size = g'.size ∧ ∀ i : Nat, Option.Rel (SameSpan a b n) g[i]?.join g'[i]?.join

/-- The same place of a match. -/
structure SameSpot (s s' : Spot) : Prop where
  pos : SamePlace a b n s.pos s'.pos
  groups : SameGroups a b n s.groups s'.groups
  laps : s'.laps = s.laps

/-- The same result of a search. -/
inductive SameFound : Found → Found → Prop
  | ok {s s' : Spot} : SameSpot a b n s s' → SameFound (.ok s) (.ok s')
  | error {g g' : Groups} : SameGroups a b n g g' → SameFound (.error g) (.error g')

/-- Continuations that do the same at the same places. -/
def SameRest (k k' : Rest) : Prop := ∀ s s', SameSpot a b n s s' → SameFound a b n (k s) (k' s')

/-- Searches that do the same with the same continuations. -/
def SameSearch (f f' : Spot → Rest → Found) : Prop :=
  ∀ s s' k k', SameSpot a b n s s' → SameRest a b n k k' → SameFound a b n (f s k) (f' s' k')

end Relations

variable {a b n : Nat} {w w' : Window}

/-! ### Windows -/

theorem Alike.byte?_eq (h : Alike a b n w w') {p p' : Nat} (hp : SamePlace a b n p p') :
    w'.byte? p' = w.byte? p := by
  obtain ⟨k, hk, rfl, rfl⟩ := hp
  unfold Window.byte?
  rw [h.stop, h.stop']
  by_cases hlt : k < n
  · have hsize := h.le_size
    rw [if_pos (by omega), if_pos (by omega)]
    exact (h.agree.getElem? hlt (by omega)).2
  · rw [if_neg (by omega), if_neg (by omega)]

theorem Alike.isWordEdge_eq (h : Alike a b n w w') {p p' : Nat} (hp : SamePlace a b n p p') :
    w'.isWordEdge p' = w.isWordEdge p := by
  have hright := h.byte?_eq hp
  obtain ⟨i, hi, ho, ho'⟩ := h.origin
  obtain ⟨k, hk, rfl, rfl⟩ := hp
  have hstop : (b + k == w'.stop) = (a + k == w.stop) := by
    rw [Bool.eq_iff_iff, beq_iff_eq, beq_iff_eq, h.stop, h.stop']
    omega
  -- the byte to the left is only looked at behind the origin
  have hleft : (w'.origin < b + k && (w'.byte? (b + k - 1)).any Byte.isWord)
      = (w.origin < a + k && (w.byte? (a + k - 1)).any Byte.isWord) := by
    by_cases hlt : w.origin < a + k
    · have hlt' : w'.origin < b + k := by omega
      have hbyte : w'.byte? (b + k - 1) = w.byte? (a + k - 1) :=
        h.byte?_eq ⟨k - 1, by omega, by omega, by omega⟩
      simp [hlt, hlt', hbyte]
    · have hlt' : ¬ w'.origin < b + k := by omega
      simp [hlt, hlt']
  simp only [Window.isWordEdge, hstop, h.cut, hleft, hright]

theorem Alike.isEdge_eq (h : Alike a b n w w') {p p' : Nat} (hp : SamePlace a b n p p') (e : Edge) :
    w'.isEdge p' e = w.isEdge p e := by
  cases e with
  | start =>
    obtain ⟨i, hi, ho, ho'⟩ := h.origin
    obtain ⟨k, hk, rfl, rfl⟩ := hp
    simp only [Window.isEdge]
    rw [Bool.eq_iff_iff, beq_iff_eq, beq_iff_eq]
    omega
  | stop =>
    obtain ⟨k, hk, rfl, rfl⟩ := hp
    have hstop : (b + k == w'.stop) = (a + k == w.stop) := by
      rw [Bool.eq_iff_iff, beq_iff_eq, beq_iff_eq, h.stop, h.stop']
      omega
    simp only [Window.isEdge, hstop, h.cut]
  | word between => simp only [Window.isEdge, h.isWordEdge_eq hp]

theorem Alike.slice_eq (h : Alike a b n w w') {p p' q q' : Nat} (hp : SamePlace a b n p p')
    (hq : SamePlace a b n q q') : w'.text.slice p' q' = w.text.slice p q := by
  obtain ⟨i, hi, rfl, rfl⟩ := hp
  obtain ⟨j, hj, rfl, rfl⟩ := hq
  have hsize := h.le_size
  have e := Text.slice_agree (a := a + i) (b := a + j) h.agree (by omega) (by omega) (by omega)
  rwa [show b + (a + i - a) = b + i by omega, show b + (a + j - a) = b + j by omega] at e

theorem Alike.repeats_eq (h : Alike a b n w w') {x y : Nat × Nat} (hx : SameSpan a b n x y)
    {p p' : Nat} (hp : SamePlace a b n p p') :
    w'.repeats y.1 y.2 p' = w.repeats x.1 x.2 p := by
  have hspan := h.slice_eq hx.1 hx.2
  obtain ⟨⟨i, hi, h₁, h₁'⟩, ⟨j, hj, h₂, h₂'⟩⟩ := hx
  obtain ⟨k, hk, rfl, rfl⟩ := hp
  unfold Window.repeats
  rw [hspan]
  by_cases hle : a + k + (x.2 - x.1) ≤ w.stop
  · have hstop := h.stop
    have hstop' := h.stop'
    have hhere : w'.text.slice (b + k) (b + k + (y.2 - y.1))
        = w.text.slice (a + k) (a + k + (x.2 - x.1)) :=
      h.slice_eq ⟨k, hk, rfl, rfl⟩ ⟨k + (x.2 - x.1), by omega, by omega, by omega⟩
    rw [hhere]
    congr 1
    rw [decide_eq_decide]
    omega
  · have hle' : ¬ b + k + (y.2 - y.1) ≤ w'.stop := by
      rw [h.stop'] at *
      rw [h.stop] at hle
      omega
    simp [hle, hle']

/-! ### Groups -/

theorem SameGroups.set {g g' : Groups} (h : SameGroups a b n g g') (i : Nat)
    {x y : Option (Nat × Nat)} (hxy : Option.Rel (SameSpan a b n) x y) :
    SameGroups a b n (g.setIfInBounds i x) (g'.setIfInBounds i y) := by
  refine ⟨by simpa using h.1, fun j => ?_⟩
  rw [Array.getElem?_setIfInBounds, Array.getElem?_setIfInBounds, ← h.1]
  by_cases hij : i = j
  · subst hij
    by_cases hi : i < g.size
    · simpa [hi] using hxy
    · simp [hi]
  · simpa [hij] using h.2 j

/-! ### The parts of a search -/

theorem SameFound.either {f f' : Found} {k k' : Groups → Found} (h : SameFound a b n f f')
    (hk : ∀ g g', SameGroups a b n g g' → SameFound a b n (k g) (k' g')) :
    SameFound a b n (Regex.either f k) (Regex.either f' k') := by
  cases h with
  | ok hs => exact .ok hs
  | error hg => exact hk _ _ hg

theorem lap_same {s s' : Spot} {more more' done done' : Rest} (id : Nat) (short : Bool)
    (hs : SameSpot a b n s s') (hmore : SameRest a b n more more')
    (hdone : SameRest a b n done done') :
    SameFound a b n (lap id short s more done) (lap id short s' more' done') := by
  have again : ∀ u u', SameSpot a b n u u' →
      SameFound a b n
        (if u.laps.count id < 2 then more { u with laps := id :: u.laps } else .error u.groups)
        (if u'.laps.count id < 2 then more' { u' with laps := id :: u'.laps }
          else .error u'.groups) := by
    intro u u' hu
    rw [hu.laps]
    split
    · exact hmore _ _ ⟨hu.pos, hu.groups, rfl⟩
    · exact .error hu.groups
  unfold lap
  cases short with
  | true =>
    exact (hdone _ _ hs).either fun g g' hg => again _ _ ⟨hs.pos, hg, hs.laps⟩
  | false =>
    exact (again _ _ hs).either fun g g' hg => hdone _ _ ⟨hs.pos, hg, hs.laps⟩

theorem iterate_same {body body' : Spot → Rest → Found} (hbody : SameSearch a b n body body')
    (id : Nat) (short : Bool) (fuel : Nat) :
    SameSearch a b n (iterate body id short fuel) (iterate body' id short fuel) := by
  induction fuel with
  | zero => intro s s' k k' hs hk; exact hk _ _ hs
  | succ fuel ih =>
    intro s s' k k' hs hk
    exact lap_same id short hs
      (fun u u' hu => hbody _ _ _ _ hu fun v v' hv => ih _ _ _ _ hv hk) hk

theorem copies_same {body body' : Nat → Spot → Rest → Found}
    (hbody : ∀ base, SameSearch a b n (body base) (body' base)) (step count base : Nat) :
    SameSearch a b n (copies body step count base) (copies body' step count base) := by
  induction count generalizing base with
  | zero => intro s s' k k' hs hk; exact hk _ _ hs
  | succ count ih =>
    intro s s' k k' hs hk
    exact hbody _ _ _ _ _ hs fun v v' hv => ih _ _ _ _ _ hv hk

theorem spares_same {body body' : Nat → Spot → Rest → Found}
    (hbody : ∀ base, SameSearch a b n (body base) (body' base)) (step : Nat) (short : Bool)
    (count base : Nat) :
    SameSearch a b n (spares body step short count base) (spares body' step short count base) := by
  induction count generalizing base with
  | zero => intro s s' k k' hs hk; exact hk _ _ hs
  | succ count ih =>
    intro s s' k k' hs hk
    exact lap_same base short hs
      (fun u u' hu => hbody _ _ _ _ _ hu fun v v' hv => ih _ _ _ _ _ hv hk) hk

theorem Alike.laps_eq (h : Alike a b n w w') {s s' : Spot} (hs : SameSpot a b n s s') :
    w'.laps s' = w.laps s := by
  obtain ⟨k, hk, hp, hp'⟩ := hs.pos
  unfold Window.laps
  rw [hp, hp', h.stop, h.stop']
  omega

/-! ### The search -/

section Same

variable (h : Alike a b n w w')

include h

theorem byte_same (c : ByteClass) (base : Nat) :
    SameSearch a b n (run w (.byte c) base) (run w' (.byte c) base) := by
  intro s s' k k' hs hk
  have hbyte := h.byte?_eq hs.pos
  obtain ⟨i, hi, hp, hp'⟩ := hs.pos
  simp only [run, hbyte]
  cases hb : w.byte? s.pos with
  | none => exact .error hs.groups
  | some c' =>
    have hlt : s.pos < w.stop := by
      unfold Window.byte? at hb
      split at hb
      · assumption
      · cases hb
    have hstop := h.stop
    dsimp only
    split
    · exact hk _ _ ⟨⟨i + 1, by omega, by simp only [Spot.advance]; omega,
        by simp only [Spot.advance]; omega⟩, hs.groups, rfl⟩
    · exact .error hs.groups

/-- The stretch that a group has taken is repeated in both windows or in none. -/
theorem backref_same (m base : Nat) :
    SameSearch a b n (run w (.backref m) base) (run w' (.backref m) base) := by
  intro s s' k k' hs hk
  simp only [run]
  have hm := hs.groups.2 m
  generalize s.groups[m]?.join = x at hm
  generalize s'.groups[m]?.join = y at hm
  cases hm with
  | none => exact .error hs.groups
  | @some x y hxy =>
    obtain ⟨x₁, x₂⟩ := x
    obtain ⟨y₁, y₂⟩ := y
    have hrep := h.repeats_eq hxy hs.pos
    dsimp only at hrep ⊢
    rw [hrep]
    obtain ⟨⟨i, hi, h₁, h₁'⟩, ⟨j, hj, h₂, h₂'⟩⟩ := hxy
    obtain ⟨p, hp, hs₁, hs₁'⟩ := hs.pos
    dsimp only at h₁ h₁' h₂ h₂'
    by_cases hr : w.repeats x₁ x₂ s.pos = true
    · rw [if_pos hr, if_pos hr]
      have hle : s.pos + (x₂ - x₁) ≤ w.stop := by
        unfold Window.repeats at hr
        simp only [Bool.and_eq_true, decide_eq_true_eq] at hr
        exact hr.1
      have hstop := h.stop
      by_cases hlt : x₁ < x₂
      · rw [if_pos hlt, if_pos (by omega)]
        exact hk _ _ ⟨⟨p + (x₂ - x₁), by omega, by simp only [Spot.advance]; omega,
          by simp only [Spot.advance]; omega⟩, hs.groups, rfl⟩
      · rw [if_neg hlt, if_neg (by omega)]
        exact hk _ _ hs
    · rw [if_neg hr, if_neg hr]
      exact .error hs.groups

/-- The window of a look-ahead begins where it looks. -/
theorem look_same {r : Regex} (hr : ∀ {w w' : Window}, Alike a b n w w' → ∀ base,
      SameSearch a b n (run w r base) (run w' r base)) (positive : Bool) (base : Nat) :
    SameSearch a b n (run w (.look positive r) base) (run w' (.look positive r) base) := by
  intro s s' k k' hs hk
  simp only [run]
  have hinner : Alike a b n { w with origin := s.pos } { w' with origin := s'.pos } :=
    ⟨h.stop, h.stop', h.le_size, h.agree, hs.pos, h.cut⟩
  have hfound := hr hinner base { s with laps := [] } { s' with laps := [] }
    (Except.ok : Rest) (Except.ok : Rest) ⟨hs.pos, hs.groups, rfl⟩ fun u u' hu => .ok hu
  generalize run { w with origin := s.pos } r base { s with laps := [] } .ok = f at hfound
  generalize run { w' with origin := s'.pos } r base { s' with laps := [] } .ok = f' at hfound
  cases hfound with
  | ok ht =>
    cases positive with
    | true => exact hk _ _ ⟨hs.pos, ht.groups, hs.laps⟩
    | false => exact .error ht.groups
  | error hg =>
    cases positive with
    | true => exact .error hs.groups
    | false => exact hk _ _ hs

theorem repeated_same {r : Regex} (hr : ∀ base, SameSearch a b n (run w r base) (run w' r base))
    (q : Quantity) (short : Bool) (base : Nat) :
    SameSearch a b n (run w (.repeated r q short) base) (run w' (.repeated r q short) base) := by
  intro s s' k k' hs hk
  have hbody : ∀ base, SameSearch a b n (fun s k => run w r base s k)
      (fun s k => run w' r base s k) := hr
  simp only [run, h.laps_eq hs]
  match q with
  | .star => exact iterate_same (hbody _) _ _ _ _ _ _ _ hs hk
  | .plus =>
    exact hbody _ _ _ _ _ hs fun t t' ht => iterate_same (hbody _) _ _ _ _ _ _ _ ht hk
  | .option =>
    exact lap_same _ _ hs (fun t t' ht => hbody _ _ _ _ _ ht hk) hk
  | .times least none =>
    exact copies_same hbody _ _ _ _ _ _ _ hs fun t t' ht =>
      iterate_same (hbody _) _ _ _ _ _ _ _ ht hk
  | .times least (some extra) =>
    exact copies_same hbody _ _ _ _ _ _ _ hs fun t t' ht =>
      spares_same hbody _ _ _ _ _ _ _ _ ht hk

end Same

/-- A search does the same on windows that are alike. -/
theorem run_same (r : Regex) (h : Alike a b n w w') (base : Nat) :
    SameSearch a b n (run w r base) (run w' r base) := by
  induction r generalizing base w w' with
  | empty => intro s s' k k' hs hk; exact hk _ _ hs
  | byte c => exact byte_same h c base
  | edge e =>
    intro s s' k k' hs hk
    simp only [run, h.isEdge_eq hs.pos]
    split
    · exact hk _ _ hs
    · exact .error hs.groups
  | backref m => exact backref_same h m base
  | group m r ih =>
    intro s s' k k' hs hk
    simp only [run]
    refine ih h base _ _ _ _ hs fun t t' ht => ?_
    have hspan : SameSpan a b n (s.pos, t.pos) (s'.pos, t'.pos) := ⟨hs.pos, ht.pos⟩
    have hspot : SameSpot a b n
        { t with groups := t.groups.setIfInBounds m (some (s.pos, t.pos)) }
        { t' with groups := t'.groups.setIfInBounds m (some (s'.pos, t'.pos)) } :=
      ⟨ht.pos, ht.groups.set m (.some hspan), ht.laps⟩
    exact (hk _ _ hspot).either fun g g' hg => .error (hg.set m (ht.groups.2 m))
  | look positive r ih => exact look_same h ih positive base
  | seq r q ihr ihq =>
    intro s s' k k' hs hk
    exact ihr h base _ _ _ _ hs fun t t' ht => ihq h _ _ _ _ _ ht hk
  | alt r q ihr ihq =>
    intro s s' k k' hs hk
    exact (ihr h base _ _ _ _ hs hk).either fun g g' hg =>
      ihq h _ _ _ _ _ ⟨hs.pos, hg, hs.laps⟩ hk
  | repeated r q short ih => exact repeated_same h (ih h) q short base

theorem Alike.spot (h : Alike a b n w w') (r : Regex) : SameSpot a b n (w.spot r) (w'.spot r) := by
  refine ⟨h.origin, ⟨by simp [Window.spot], fun i => ?_⟩, rfl⟩
  simp only [Window.spot, Array.getElem?_replicate]
  split <;> exact Option.Rel.none

theorem matchFrom_same (r : Regex) (h : Alike a b n w w') :
    Option.Rel (SamePlace a b n) (r.matchFrom w) (r.matchFrom w') := by
  have hfound := run_same r h 0 _ _ (Except.ok : Rest) (Except.ok : Rest) (h.spot r)
    fun u u' hu => .ok hu
  unfold matchFrom
  generalize r.run w 0 (w.spot r) .ok = f at hfound
  generalize r.run w' 0 (w'.spot r) .ok = f' at hfound
  cases hfound with
  | ok hs => exact .some hs.pos
  | error hg => exact .none

/-- On windows that are alike an expression matches equally far. -/
theorem matchFrom_alike (r : Regex) (h : Alike a b n w w') :
    r.matchFrom w' = (r.matchFrom w).map fun p => b + (p - a) := by
  have hsame := matchFrom_same r h
  generalize r.matchFrom w = x at hsame
  generalize r.matchFrom w' = y at hsame
  cases hsame with
  | none => rfl
  | some hp =>
    obtain ⟨k, hk, rfl, rfl⟩ := hp
    simp

/-- A match stays inside its window. -/
theorem matchFrom_mem (r : Regex) (horigin : w.origin ≤ w.stop) (hstop : w.stop ≤ w.text.size)
    {p : Nat} (hp : r.matchFrom w = some p) : w.origin ≤ p ∧ p ≤ w.stop := by
  have hself : Alike w.origin w.origin (w.stop - w.origin) w w :=
    ⟨by omega, by omega, by omega, fun k hk => rfl, ⟨0, by omega, rfl, rfl⟩, rfl⟩
  have hsame := matchFrom_same r hself
  rw [hp] at hsame
  cases hsame with
  | some h =>
    obtain ⟨k, hk, rfl, -⟩ := h
    omega

end Regex

end Packrat
