import Packrat.Footprint
import Packrat.Proofs.Text.Edits

/-!
Footprints as sets of offsets.

The spans of a footprint are not empty and stand one behind the other (`Footprint.Ordered`); two of
them may touch, since the text between them can be deleted.  Under this invariant a footprint is the
set that it denotes: adding a stretch and merging are unions (`Footprint.add_spec`,
`Footprint.merge_spec`), the search by halving finds out whether a stretch is met
(`Footprint.intersects_iff`), and moving the spans behind an edit moves the members behind it
(`Footprint.shift_spec`), if the edited stretch itself is no part of the set.
-/

namespace Packrat

namespace Footprint

variable {f g : Footprint} {a b x : Nat}

/-- Spans that are not empty and stand one behind the other. -/
def Apart (l : List (Nat × Nat)) : Prop :=
  (∀ s ∈ l, s.1 < s.2) ∧ l.Pairwise fun s t => s.2 ≤ t.1

/-- An offset lies in one of the spans. -/
def Covers (l : List (Nat × Nat)) (x : Nat) : Prop := ∃ s ∈ l, s.1 ≤ x ∧ x < s.2

/-- The spans of the footprint are not empty and stand one behind the other. -/
def Ordered (f : Footprint) : Prop := Apart f.spans.toList

theorem mem_iff_covers : f.mem x ↔ Covers f.spans.toList x := by simp [mem, Covers]

@[simp] theorem covers_nil : ¬Covers [] x := by simp [Covers]

@[simp] theorem covers_cons {s : Nat × Nat} {l : List (Nat × Nat)} :
    Covers (s :: l) x ↔ (s.1 ≤ x ∧ x < s.2) ∨ Covers l x := by simp [Covers]

@[simp] theorem covers_append {l m : List (Nat × Nat)} :
    Covers (l ++ m) x ↔ Covers l x ∨ Covers m x := by
  simp only [Covers, List.mem_append, or_and_right, exists_or]

theorem apart_nil : Apart [] := ⟨by simp, .nil⟩

theorem apart_cons {s : Nat × Nat} {l : List (Nat × Nat)} :
    Apart (s :: l) ↔ s.1 < s.2 ∧ (∀ t ∈ l, s.2 ≤ t.1) ∧ Apart l := by
  simp only [Apart, List.mem_cons, forall_eq_or_imp, List.pairwise_cons]
  tauto

theorem apart_append {l m : List (Nat × Nat)} :
    Apart (l ++ m) ↔ Apart l ∧ Apart m ∧ ∀ s ∈ l, ∀ t ∈ m, s.2 ≤ t.1 := by
  simp only [Apart, List.mem_append, or_imp, forall_and, List.pairwise_append]
  tauto

@[simp] theorem not_mem_empty : ¬empty.mem x := by simp [mem, empty]

theorem ordered_empty : empty.Ordered := apart_nil

/-! ### Adding a span -/

/-- A span that swallows what it reaches keeps the spans apart and denotes the union. -/
theorem absorb_spec {lo stop : Nat} {l : List (Nat × Nat)} (hl : Apart l) (hlo : lo < stop)
    (hlow : ∀ s ∈ l, lo ≤ s.1) :
    Apart ((lo, (absorb stop l).1) :: (absorb stop l).2)
      ∧ ∀ x, Covers ((lo, (absorb stop l).1) :: (absorb stop l).2) x
          ↔ (lo ≤ x ∧ x < stop) ∨ Covers l x := by
  induction l generalizing stop with
  | nil => exact ⟨by simp [absorb, apart_cons, hlo, apart_nil], by simp [absorb]⟩
  | cons s l ih =>
    obtain ⟨hs, hbehind, hl⟩ := apart_cons.1 hl
    have hs₁ := hlow s (by simp)
    rw [absorb]
    split
    · next hle =>
      obtain ⟨h₁, h₂⟩ := ih hl (by omega : lo < max stop s.2) fun t ht => hlow t (by simp [ht])
      refine ⟨h₁, fun x => ?_⟩
      rw [h₂ x, covers_cons, ← or_assoc]
      -- the two stretches touch or overlap, so nothing is added between them
      refine or_congr_left ?_
      omega
    · next hle =>
      refine ⟨apart_cons.2 ⟨hlo, ?_, apart_cons.2 ⟨hs, hbehind, hl⟩⟩, fun x => by simp⟩
      intro t ht
      rcases List.mem_cons.1 ht with rfl | ht
      · omega
      · have := hbehind t ht
        simp only
        omega

theorem drop_split {i : Nat} (hlt : i < f.spans.size) :
    f.spans.toList.drop i = f.spans[i] :: f.spans.toList.drop (i + 1) := by
  rw [List.drop_eq_getElem_cons (by simpa using hlt), Array.getElem_toList]

/-- The spans, taken apart at one of them. -/
theorem toList_split {i : Nat} (hlt : i < f.spans.size) :
    f.spans.toList = f.spans.toList.take i ++ f.spans[i] :: f.spans.toList.drop (i + 1) := by
  rw [← drop_split hlt, List.take_append_drop]

/-- The spans in front of a place, and those that reach up to it or stand behind it. -/
theorem split_at (h : f.Ordered) (start : Nat) {i : Nat}
    (hi : i = bisect (fun k => (f.spans[k]?).any fun s => s.2 < start) 0 f.spans.size) :
    (∀ s ∈ f.spans.toList.take i, s.2 < start) ∧ ∀ s ∈ f.spans.toList.drop i, start ≤ s.2 := by
  have hmono : ∀ j k, 0 ≤ j → j ≤ k → k < 0 + f.spans.size →
      ((f.spans[k]?).any fun s => decide (s.2 < start)) = true →
      ((f.spans[j]?).any fun s => decide (s.2 < start)) = true := by
    intro j k _ hjk hk hp
    rcases Nat.eq_or_lt_of_le hjk with rfl | hlt
    · exact hp
    · rw [Nat.zero_add] at hk
      have hj : j < f.spans.size := by omega
      simp only [Array.getElem?_eq_getElem hk, Array.getElem?_eq_getElem hj, Option.any_some,
        decide_eq_true_eq] at hp ⊢
      have hle := List.pairwise_iff_getElem.1 h.2 j k (by simpa using hj) (by simpa using hk) hlt
      have hne := h.1 f.spans[k] (by simp)
      simp only [Array.getElem_toList] at hle
      omega
  obtain ⟨h₁, h₂⟩ := bisect_spec hmono
  rw [← hi] at h₁ h₂
  constructor
  · intro s hs
    obtain ⟨k, hk, rfl⟩ := List.mem_take_iff_getElem.1 hs
    have hsize : k < f.spans.size := by simp at hk; omega
    have := h₁ k (Nat.zero_le k) (by omega)
    simpa [Array.getElem?_eq_getElem hsize] using this
  · intro s hs
    obtain ⟨k, hk, rfl⟩ := List.mem_drop_iff_getElem.1 hs
    have hsize : k + i < f.spans.size := by simpa using hk
    have := h₂ (i + k) (by omega) (by omega)
    rw [Array.getElem?_eq_getElem (by omega)] at this
    simpa using this

/-- A stretch behind all spans. -/
theorem push_spec (h : f.Ordered) (hab : a < b) (hbefore : ∀ s ∈ f.spans.toList, s.2 < a) :
    Ordered ⟨f.spans.push (a, b)⟩ ∧ ∀ x, Covers (f.spans.push (a, b)).toList x
      ↔ Covers f.spans.toList x ∨ (a ≤ x ∧ x < b) := by
  simp only [Ordered, Array.toList_push]
  refine ⟨apart_append.2 ⟨h, apart_cons.2 ⟨hab, by simp, apart_nil⟩, ?_⟩, fun x => by simp⟩
  intro s hs t ht
  obtain rfl := List.mem_singleton.1 ht
  exact Nat.le_of_lt (hbefore s hs)

/-- If the last span ends in front of a place, all of them do. -/
theorem Ordered.lt_of_back (h : f.Ordered) (hback : f.spans.back?.all (fun s => s.2 < a) = true) :
    ∀ s ∈ f.spans.toList, s.2 < a := by
  intro s hs
  obtain ⟨l, last, hlast⟩ : ∃ l last, f.spans.toList = l ++ [last] := by
    rcases List.eq_nil_or_concat f.spans.toList with hnil | ⟨l, last, hl⟩
    · rw [hnil] at hs; cases hs
    · exact ⟨l, last, by simpa using hl⟩
  have hend : last.2 < a := by
    rw [← Array.getLast?_toList, hlast] at hback
    simpa using hback
  have hap : Apart (l ++ [last]) := hlast ▸ h
  obtain ⟨-, hl, hbefore⟩ := apart_append.1 hap
  rw [hlast] at hs
  rcases List.mem_append.1 hs with hs | hs
  · have := hbefore s hs last (by simp)
    have := (apart_cons.1 hl).1
    omega
  · obtain rfl := List.mem_singleton.1 hs
    exact hend

/-- A stretch in a gap between the spans. -/
theorem insert_spec {spans l m : List (Nat × Nat)} {s : Nat × Nat} (h : Apart spans)
    (hsplit : spans = l ++ s :: m) (hab : a < b) (hbefore : ∀ t ∈ l, t.2 < a) (hgap : b < s.1) :
    Apart (l ++ (a, b) :: s :: m)
      ∧ ∀ x, Covers (l ++ (a, b) :: s :: m) x ↔ Covers spans x ∨ (a ≤ x ∧ x < b) := by
  subst hsplit
  obtain ⟨hfront, hrest, hcross⟩ := apart_append.1 h
  obtain ⟨hne, hnext, -⟩ := apart_cons.1 hrest
  refine ⟨apart_append.2 ⟨hfront, apart_cons.2 ⟨hab, ?_, hrest⟩, ?_⟩, fun x => ?_⟩
  · intro t ht
    rcases List.mem_cons.1 ht with rfl | ht
    · exact Nat.le_of_lt hgap
    · have := hnext t ht
      simp only
      omega
  · intro t ht u hu
    rcases List.mem_cons.1 hu with rfl | hu
    · exact Nat.le_of_lt (hbefore t ht)
    · exact hcross t ht u hu
  · simp only [covers_append, covers_cons]
    tauto

/-- A stretch that meets a span becomes one with it and with the spans that it reaches. -/
theorem join_spec {spans l m : List (Nat × Nat)} {s : Nat × Nat} (h : Apart spans)
    (hsplit : spans = l ++ s :: m) (hab : a < b) (hbefore : ∀ t ∈ l, t.2 < a) (hreach : a ≤ s.2)
    (hmeets : s.1 ≤ b) :
    Apart (l ++ (min s.1 a, (absorb (max s.2 b) m).1) :: (absorb (max s.2 b) m).2)
      ∧ ∀ x, Covers (l ++ (min s.1 a, (absorb (max s.2 b) m).1) :: (absorb (max s.2 b) m).2) x
          ↔ Covers spans x ∨ (a ≤ x ∧ x < b) := by
  subst hsplit
  obtain ⟨hfront, hrest, hcross⟩ := apart_append.1 h
  obtain ⟨hne, hnext, htail⟩ := apart_cons.1 hrest
  obtain ⟨habs, hcov⟩ := absorb_spec htail (by omega : min s.1 a < max s.2 b)
    fun t ht => by have := hnext t ht; omega
  refine ⟨apart_append.2 ⟨hfront, habs, ?_⟩, fun x => ?_⟩
  · intro t ht u hu
    have h₁ := hbefore t ht
    have h₂ := hcross t ht s (by simp)
    rcases List.mem_cons.1 hu with rfl | hu
    · simp only; omega
    · have := (apart_cons.1 habs).2.1 u hu
      have := (apart_cons.1 habs).1
      simp only at *
      omega
  · rw [covers_append, hcov, covers_append, covers_cons]
    by_cases h₁ : Covers l x <;> by_cases h₂ : Covers m x <;> simp [h₁, h₂]
    omega

/-- Adding a stretch keeps the spans in order and is a union. -/
theorem add_spec (h : f.Ordered) (a b : Nat) :
    (f.add a b).Ordered ∧ ∀ x, (f.add a b).mem x ↔ f.mem x ∨ (a ≤ x ∧ x < b) := by
  simp only [mem_iff_covers]
  unfold add
  split
  · exact ⟨h, fun x => by constructor <;> [exact .inl; rintro (hx | hx) <;> [exact hx; omega]]⟩
  · next hab =>
    have hab : a < b := Nat.lt_of_not_le hab
    split
    · next hback => exact push_spec h hab (h.lt_of_back hback)
    · dsimp only
      generalize hi : bisect (fun k => (f.spans[k]?).any fun s => decide (s.2 < a)) 0 f.spans.size = i
      obtain ⟨hbefore, hbehind⟩ := split_at h a hi.symm
      split
      · next hnone =>
        refine push_spec h hab fun s hs => hbefore s ?_
        rw [List.take_of_length_le (by simpa [Array.getElem?_eq_none_iff] using hnone)]
        exact hs
      · next s hs =>
        obtain ⟨hlt, rfl⟩ := Array.getElem?_eq_some_iff.1 hs
        have hreach := hbehind f.spans[i] (by rw [drop_split hlt]; simp)
        split
        · next hgap =>
          have hlist : ((f.spans.extract 0 i).push (a, b) ++ f.spans.extract i f.spans.size).toList
              = f.spans.toList.take i ++ (a, b) :: f.spans[i] :: f.spans.toList.drop (i + 1) := by
            rw [← drop_split hlt]
            simp [List.take_of_length_le]
          simp only [Ordered, hlist]
          exact insert_spec h (toList_split hlt) hab hbefore hgap
        · next hgap =>
          have hlist : ∀ j : Nat × List (Nat × Nat), ((f.spans.extract 0 i).push
              (min f.spans[i].1 a, j.1) ++ j.2.toArray).toList
              = f.spans.toList.take i ++ (min f.spans[i].1 a, j.1) :: j.2 := by simp
          have hextract : (f.spans.extract (i + 1) f.spans.size).toList
              = f.spans.toList.drop (i + 1) := by simp [List.take_of_length_le]
          simp only [Ordered, hlist, hextract]
          exact join_spec h (toList_split hlt) hab hbefore hreach (Nat.le_of_not_lt hgap)

/-! ### Unions -/

theorem note_spec (h : f.Ordered) (l : Look) :
    (f.note l).Ordered ∧ ∀ x, (f.note l).mem x ↔ f.mem x ∨ (l.start ≤ x ∧ x < l.stop) :=
  add_spec h l.start l.stop

/-- Merging is a union. -/
theorem merge_spec (hf : f.Ordered) (hg : g.Ordered) :
    (f.merge g).Ordered ∧ ∀ x, (f.merge g).mem x ↔ f.mem x ∨ g.mem x := by
  unfold merge
  split
  · next hempty =>
    refine ⟨hg, fun x => ?_⟩
    have : ¬f.mem x := by simp [mem, Array.isEmpty_iff.1 hempty]
    simp [this]
  · next hne =>
    clear hg hne
    rw [← Array.foldl_toList]
    simp only [mem_iff_covers (f := g)]
    generalize g.spans.toList = l
    induction l generalizing f with
    | nil => exact ⟨hf, by simp⟩
    | cons s l ih =>
      obtain ⟨h₁, h₂⟩ := add_spec hf s.1 s.2
      obtain ⟨h₃, h₄⟩ := ih h₁
      exact ⟨h₃, fun x => by rw [List.foldl_cons, h₄, h₂, covers_cons, or_assoc]⟩

/-! ### Meeting a stretch -/

/-- The search by halving finds out whether the set meets a stretch. -/
theorem intersects_iff (h : f.Ordered) :
    f.intersects a b = true ↔ ∃ x, a ≤ x ∧ x < b ∧ f.mem x := by
  unfold intersects
  split
  · next hab => simp only [Bool.false_eq_true, false_iff]; rintro ⟨x, h₁, h₂, -⟩; omega
  · next hab =>
    dsimp only
    -- the search is that for the spans that end in front of the next offset
    generalize hi : bisect (fun k => (f.spans[k]?).any fun s => decide (s.2 ≤ a)) 0 f.spans.size = i
    have hi' : i = bisect (fun k => (f.spans[k]?).any fun s => decide (s.2 < a + 1)) 0
        f.spans.size := by
      rw [← hi]
      congr 1
      funext k
      congr 1
      funext s
      exact decide_eq_decide.2 Nat.lt_succ_iff.symm
    obtain ⟨hbefore, hbehind⟩ := split_at h (a + 1) hi'
    cases hs : f.spans[i]? with
    | none =>
      simp only [Option.any_none, Bool.false_eq_true, false_iff]
      rintro ⟨x, hax, hxb, s, hs', h₁, h₂⟩
      have := hbefore s (by
        rw [List.take_of_length_le (by simpa [Array.getElem?_eq_none_iff] using hs)]
        simpa using hs')
      omega
    | some s =>
      obtain ⟨hlt, rfl⟩ := Array.getElem?_eq_some_iff.1 hs
      have hreach := hbehind f.spans[i] (by rw [drop_split hlt]; simp)
      have hne := h.1 f.spans[i] (by simp)
      simp only [Option.any_some, decide_eq_true_eq]
      constructor
      · intro hb
        exact ⟨max a f.spans[i].1, by omega, by omega, f.spans[i], by simp, by omega, by omega⟩
      · rintro ⟨x, hax, hxb, s, hs', h₁, h₂⟩
        have hap : Apart (f.spans.toList.take i ++ f.spans[i] :: f.spans.toList.drop (i + 1)) :=
          toList_split hlt ▸ h
        have hap := (apart_append.1 hap).2.1
        rw [← Array.mem_toList_iff, toList_split hlt] at hs'
        rcases List.mem_append.1 hs' with hs' | hs'
        · have := hbefore s hs'
          omega
        · rcases List.mem_cons.1 hs' with rfl | hs'
          · omega
          · have := (apart_cons.1 hap).2.1 s hs'
            omega

/-! ### Displaced spans -/

section Displaced

variable {s e : Nat} {delta : Int}

/-- The set misses the stretch that an edit of `[s, e)` concerns: what it replaces, and the byte it is
put in front of. -/
def Misses (f : Footprint) (s e : Nat) : Prop := ∀ x, s ≤ x → x < max e (s + 1) → ¬f.mem x

/-- A span lies in front of a stretch that the set misses or behind it. -/
theorem Misses.span (h : f.Misses s e) {p : Nat × Nat} (hp : p ∈ f.spans.toList) (hne : p.1 < p.2) :
    p.2 ≤ s ∨ (s < p.1 ∧ e ≤ p.1) := by
  by_contra hcon
  have hmem : ∀ x, p.1 ≤ x → x < p.2 → f.mem x := fun x h₁ h₂ => ⟨p, by simpa using hp, h₁, h₂⟩
  rcases Nat.lt_or_ge p.1 s with hlt | hge
  · exact h s (by omega) (by omega) (hmem _ (by omega) (by omega))
  · exact h p.1 hge (by omega) (hmem _ (by omega) hne)

/-- What a shift makes of a span. -/
def shiftSpan (s e : Nat) (delta : Int) (p : Nat × Nat) : Nat × Nat :=
  if Offset.isBehind p.1 s e then (Offset.move p.1 delta, Offset.move p.2 delta) else p

theorem toList_shift : (f.shift s e delta).spans.toList = f.spans.toList.map (shiftSpan s e delta) := by
  rw [shift, Array.toList_map]
  rfl

/-- Spans in front of the edit stay and those behind it move, as long as they do not get beyond the last
word. -/
theorem shiftSpan_spec (hf : f.Ordered) (hdelta : (s : Int) - e ≤ delta) (hmiss : f.Misses s e)
    (hword : ∀ x, f.mem x → max e (s + 1) ≤ x → (x : Int) + delta + 1 < Offset.count)
    {p : Nat × Nat} (hp : p ∈ f.spans.toList) :
    (p.2 ≤ s ∧ shiftSpan s e delta p = p)
      ∨ (s < p.1 ∧ e ≤ p.1 ∧ ((shiftSpan s e delta p).1 : Int) = p.1 + delta
        ∧ ((shiftSpan s e delta p).2 : Int) = p.2 + delta) := by
  have hne := hf.1 p hp
  unfold shiftSpan
  rcases hmiss.span hp hne with hfront | ⟨h₁, h₂⟩
  · exact .inl ⟨hfront, if_neg (by rw [Offset.isBehind_iff]; omega)⟩
  · -- of all offsets of the span it is the last one that gets furthest
    have hlast := hword (p.2 - 1) ⟨p, by simpa using hp, by omega, by omega⟩ (by omega)
    rw [if_pos (by rw [Offset.isBehind_iff]; exact ⟨h₁, h₂⟩)]
    exact .inr ⟨h₁, h₂, Offset.move_eq (by omega) (by omega), Offset.move_eq (by omega) (by omega)⟩

/-- A shift around a stretch that the set misses keeps the spans in order, which may touch then, and
moves the members behind the stretch. -/
theorem shift_moves (hf : f.Ordered) (hdelta : (s : Int) - e ≤ delta) (hmiss : f.Misses s e)
    (hword : ∀ x, f.mem x → max e (s + 1) ≤ x → (x : Int) + delta + 1 < Offset.count) :
    (f.shift s e delta).Ordered ∧ ∀ y, (f.shift s e delta).mem y
      ↔ ∃ x, f.mem x ∧ (y : Int) = if max e (s + 1) ≤ x then (x : Int) + delta else x := by
  have hspec := fun {p} => shiftSpan_spec hf hdelta hmiss hword (p := p)
  constructor
  · rw [Ordered, toList_shift]
    constructor
    · intro q hq
      obtain ⟨p, hp, rfl⟩ := List.mem_map.1 hq
      have hne := hf.1 p hp
      rcases hspec hp with ⟨-, h₁⟩ | ⟨-, -, h₁, h₂⟩
      · rw [h₁]
        exact hne
      · omega
    · rw [List.pairwise_map]
      refine hf.2.imp_of_mem fun {p q} hp hq hpq => ?_
      have hne := hf.1 p hp
      have hne' := hf.1 q hq
      rcases hspec hp with ⟨h₁, h₂⟩ | ⟨h₁, h₂, h₃, h₄⟩ <;>
        rcases hspec hq with ⟨h₁', h₂'⟩ | ⟨h₁', h₂', h₃', h₄'⟩
      · rw [h₂, h₂']
        exact hpq
      · rw [h₂]
        omega
      · omega
      · omega
  · intro y
    simp only [mem_iff_covers, toList_shift, Covers, List.mem_map]
    constructor
    · rintro ⟨q, ⟨p, hp, rfl⟩, h₁, h₂⟩
      have hne := hf.1 p hp
      rcases hspec hp with ⟨h₃, h₄⟩ | ⟨h₃, h₄, h₅, h₆⟩
      · rw [h₄] at h₁ h₂
        exact ⟨y, ⟨p, hp, h₁, h₂⟩, by rw [if_neg (by omega)]⟩
      · refine ⟨(y - delta).toNat, ⟨p, hp, by omega, by omega⟩, ?_⟩
        rw [if_pos (by omega)]
        omega
    · rintro ⟨x, ⟨p, hp, h₁, h₂⟩, hy⟩
      refine ⟨shiftSpan s e delta p, ⟨p, hp, rfl⟩, ?_⟩
      rcases hspec hp with ⟨h₃, h₄⟩ | ⟨h₃, h₄, h₅, h₆⟩
      · rw [if_neg (by omega)] at hy
        rw [h₄]
        omega
      · rw [if_pos (by omega)] at hy
        omega

end Displaced

/-! ### Moving along with an edit -/

variable {e : Edit} {t : Text}

/-- The stretch whose readers an edit concerns: what it replaces, and the byte it is put in front
of. -/
def Avoids (f : Footprint) (e : Edit) : Prop :=
  ∀ x, e.offset ≤ x → x < max (e.offset + e.oldLength) (e.offset + 1) → ¬f.mem x

/-- Moving the spans behind an edit that the set avoids keeps them in order and moves the members. -/
theorem shift_spec (hf : f.Ordered) (he : e.Fits t)
    (hsize : ∀ s ∈ f.spans.toList, s.2 ≤ t.size + 1) (h : f.Avoids e) :
    (f.shift e.offset e.stop e.delta).Ordered
      ∧ ∀ y, (f.shift e.offset e.stop e.delta).mem y
          ↔ ∃ x, f.mem x ∧ Offset.shift x e.offset e.stop e.delta = y := by
  have hle := he.le_size
  have hmem : ∀ x, f.mem x → x ≤ t.size := by
    rintro x ⟨s, hs, h₁, h₂⟩
    have := hsize s (by simpa using hs)
    omega
  have hword : ∀ x, f.mem x → max e.stop (e.offset + 1) ≤ x →
      (x : Int) + e.delta + 1 < Offset.count := by
    intro x hx hbehind
    have hlt := he.size_lt
    have hlt' := he.size_lt'
    have := hmem x hx
    rw [he.size_eq] at hlt'
    rw [he.stop_eq] at hbehind
    rw [he.delta_eq]
    simp only [Text.maxSize, Offset.count] at *
    omega
  obtain ⟨hordered, hmoves⟩ := shift_moves hf (by rw [he.stop_eq, he.delta_eq]; omega)
    (by rw [he.stop_eq]; exact h) hword
  refine ⟨hordered, fun y => (hmoves y).trans (exists_congr fun x => and_congr_right fun hx => ?_)⟩
  have := hmem x hx
  by_cases hbehind : max e.stop (e.offset + 1) ≤ x
  · have hshift := he.shift_behind (x := x) (by omega) (by omega) (by rw [← he.stop_eq]; omega)
    rw [if_pos hbehind, hshift, he.delta_eq]
    rw [he.stop_eq] at hbehind
    omega
  · have hshift := he.shift_before (x := x) (by rw [← he.stop_eq]; omega)
    rw [if_neg hbehind, hshift]
    omega

end Footprint

end Packrat
