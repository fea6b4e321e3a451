import Packrat.Proofs.Footprint
import Packrat.Proofs.Scan.Ignored
import Packrat.Proofs.Tree.Subtree
import Mathlib.Data.List.Forall2

/-!
The same thing, found somewhere else.

A text can show the same at two places, and what is matched there is then the same up to its place.
For a distance `d` this says what that means for an offset, for a look, for a footprint and for a
tree; the positions of a tree, line and column, are left out.  The stored spans of two footprints
correspond one by one, and all operations on footprints keep it that way.
-/

namespace Packrat

variable {d : Int}

/-- The offset `o'` stands `d` places behind `o`. -/
def Offset.MovedBy (d : Int) (o o' : Nat) : Prop := (o' : Int) = o + d

namespace Offset.MovedBy

variable {a a' b b' : Nat}

theorem le_iff (ha : MovedBy d a a') (hb : MovedBy d b b') : a' ≤ b' ↔ a ≤ b := by
  unfold MovedBy at ha hb
  omega

theorem lt_iff (ha : MovedBy d a a') (hb : MovedBy d b b') : a' < b' ↔ a < b := by
  unfold MovedBy at ha hb
  omega

theorem eq_iff (ha : MovedBy d a a') (hb : MovedBy d b b') : a' = b' ↔ a = b := by
  unfold MovedBy at ha hb
  omega

theorem max (ha : MovedBy d a a') (hb : MovedBy d b b') : MovedBy d (max a b) (max a' b') := by
  unfold MovedBy at ha hb ⊢
  omega

theorem min (ha : MovedBy d a a') (hb : MovedBy d b b') : MovedBy d (min a b) (min a' b') := by
  unfold MovedBy at ha hb ⊢
  omega

theorem add (ha : MovedBy d a a') (n : Nat) : MovedBy d (a + n) (a' + n) := by
  unfold MovedBy at ha ⊢
  omega

/-- An offset behind another one is found equally far behind it. -/
theorem behind (ha : MovedBy d a a') (h : a ≤ b) : MovedBy d b (a' + (b - a)) := by
  unfold MovedBy at ha ⊢
  omega

end Offset.MovedBy

/-! ### Looks -/

/-- Where a look leads to, `d` places further on. -/
inductive Reach.MovedBy (d : Int) : Reach → Reach → Prop
  | upTo {o o' : Nat} : Offset.MovedBy d o o' → MovedBy d (.upTo o) (.upTo o')
  | nothing : MovedBy d .nothing .nothing
  | beyond : MovedBy d .beyond .beyond

/-- A look that is taken `d` places further on and finds the same. -/
structure Look.MovedBy (d : Int) (l l' : Look) : Prop where
  reach : l.reach.MovedBy d l'.reach
  start : Offset.MovedBy d l.start l'.start
  stop : Offset.MovedBy d l.stop l'.stop

theorem Look.Inside.movedBy {t : Text} {o o' : Nat} {l : Look} (h : l.Inside t o)
    (ho : Offset.MovedBy d o o') : l.MovedBy d (l.moved o') := by
  have hstart := h.start
  rw [← hstart] at ho
  have hle := h.start_le
  refine ⟨?_, ho, ho.behind (by omega)⟩
  show l.reach.MovedBy d (l.reach.moved l.start o')
  cases hreach : l.reach with
  | upTo stop =>
    have := (h.upTo hreach).1
    exact .upTo (ho.behind (by omega))
  | nothing => exact .nothing
  | beyond => exact .beyond

/-- A look that finds something finds it elsewhere as well. -/
theorem Look.MovedBy.upTo {l l' : Look} (h : l.MovedBy d l') {stop : Nat}
    (hreach : l.reach = .upTo stop) : ∃ stop', l'.reach = .upTo stop' ∧ Offset.MovedBy d stop stop' := by
  have hmoved := h.reach
  rw [hreach] at hmoved
  generalize l'.reach = reach' at hmoved
  cases hmoved with
  | upTo hstop => exact ⟨_, rfl, hstop⟩

/-- A look that finds nothing finds nothing elsewhere. -/
theorem Look.MovedBy.ne_upTo {l l' : Look} (h : l.MovedBy d l') (hreach : ∀ stop, l.reach ≠ .upTo stop)
    (stop' : Nat) : l'.reach ≠ .upTo stop' := by
  intro heq
  have hmoved := h.reach
  rw [heq] at hmoved
  generalize hr : l.reach = reach at hmoved
  cases hmoved with
  | upTo _ => exact hreach _ hr

/-! ### Footprints -/

namespace Footprint

/-- A span that is found `d` places further on. -/
def SpanMovedBy (d : Int) (s s' : Nat × Nat) : Prop :=
  Offset.MovedBy d s.1 s'.1 ∧ Offset.MovedBy d s.2 s'.2

/-- A footprint whose spans are those of another one, `d` places further on. -/
def MovedBy (d : Int) (f f' : Footprint) : Prop :=
  List.Forall₂ (SpanMovedBy d) f.spans.toList f'.spans.toList

variable {f f' g g' : Footprint} {a a' b b' : Nat}

theorem movedBy_empty : MovedBy d .empty .empty := .nil

theorem MovedBy.size_eq (h : MovedBy d f f') : f'.spans.size = f.spans.size := by
  have := h.length_eq
  simpa using this.symm

/-- The spans with the same number correspond. -/
theorem MovedBy.getElem? (h : MovedBy d f f') (i : Nat) :
    (f.spans[i]? = none ∧ f'.spans[i]? = none)
      ∨ ∃ s s', f.spans[i]? = some s ∧ f'.spans[i]? = some s' ∧ SpanMovedBy d s s' := by
  rcases Nat.lt_or_ge i f.spans.size with hi | hi
  · have hi' : i < f'.spans.size := by rw [h.size_eq]; exact hi
    refine .inr ⟨f.spans[i], f'.spans[i], by simp [hi], by simp [hi'], ?_⟩
    have := h.get (by simpa using hi) (by simpa using hi')
    simpa using this
  · have hi' : f'.spans.size ≤ i := by rw [h.size_eq]; exact hi
    exact .inl ⟨by simp [hi], by simp [hi']⟩

theorem MovedBy.any_eq (h : MovedBy d f f') (i : Nat) {p p' : Nat × Nat → Bool}
    (hp : ∀ s s', SpanMovedBy d s s' → p' s' = p s) : (f'.spans[i]?).any p' = (f.spans[i]?).any p := by
  rcases h.getElem? i with ⟨hs, hs'⟩ | ⟨s, s', hs, hs', hmoved⟩
  · rw [hs, hs']
    rfl
  · rw [hs, hs']
    exact hp s s' hmoved

/-- A footprint that is found further on denotes the set that is found there. -/
theorem MovedBy.mem_iff (h : MovedBy d f f') {x x' : Nat} (hx : Offset.MovedBy d x x') :
    f'.mem x' ↔ f.mem x := by
  rw [mem_iff_covers, mem_iff_covers]
  unfold MovedBy at h
  generalize f.spans.toList = l at h ⊢
  generalize f'.spans.toList = l' at h ⊢
  induction h with
  | nil => simp
  | cons hs _ ih => rw [covers_cons, covers_cons, hs.1.le_iff hx, hx.lt_iff hs.2, ih]

/-- Whatever is found further on comes from somewhere. -/
theorem MovedBy.exists_mem (h : MovedBy d f f') {y : Nat} (hy : f'.mem y) :
    ∃ x, f.mem x ∧ Offset.MovedBy d x y := by
  rw [mem_iff_covers] at hy
  simp only [mem_iff_covers]
  unfold MovedBy at h
  generalize f.spans.toList = l at h ⊢
  generalize f'.spans.toList = l' at h hy
  induction h with
  | nil => simp at hy
  | @cons s s' _ _ hs _ ih =>
    rw [covers_cons] at hy
    rcases hy with hy | hy
    · obtain ⟨h₁, h₂⟩ := hs
      unfold Offset.MovedBy at h₁ h₂ ⊢
      exact ⟨((y : Int) - d).toNat, covers_cons.2 (.inl ⟨by omega, by omega⟩), by omega⟩
    · obtain ⟨x, hx, hmoved⟩ := ih hy
      exact ⟨x, covers_cons.2 (.inr hx), hmoved⟩

theorem absorb_moved {l l' : List (Nat × Nat)} (h : List.Forall₂ (SpanMovedBy d) l l')
    (hb : Offset.MovedBy d b b') :
    Offset.MovedBy d (absorb b l).1 (absorb b' l').1
      ∧ List.Forall₂ (SpanMovedBy d) (absorb b l).2 (absorb b' l').2 := by
  induction h generalizing b b' with
  | nil => exact ⟨hb, .nil⟩
  | @cons s s' l l' hs hl ih =>
    rw [absorb, absorb]
    simp only [hs.1.le_iff hb]
    split
    · exact ih (hb.max hs.2)
    · exact ⟨hb, .cons hs hl⟩

/-- Adding a stretch keeps footprints in correspondence. -/
theorem MovedBy.add (h : MovedBy d f f') (ha : Offset.MovedBy d a a') (hb : Offset.MovedBy d b b') :
    MovedBy d (f.add a b) (f'.add a' b') := by
  have hnew : List.Forall₂ (SpanMovedBy d) [(a, b)] [(a', b')] := .cons ⟨ha, hb⟩ .nil
  have hpush : MovedBy d ⟨f.spans.push (a, b)⟩ ⟨f'.spans.push (a', b')⟩ := by
    simpa [MovedBy] using List.rel_append h hnew
  have hback : (f'.spans.back?.all fun s => s.2 < a') = f.spans.back?.all fun s => s.2 < a := by
    rw [Array.back?, Array.back?, h.size_eq]
    rcases h.getElem? (f.spans.size - 1) with ⟨hs, hs'⟩ | ⟨s, s', hs, hs', hmoved⟩
    · rw [hs, hs']
      rfl
    · rw [hs, hs']
      exact decide_eq_decide.2 (hmoved.2.lt_iff ha)
  have hbisect : (fun k : Nat => (f'.spans[k]?).any fun s => s.2 < a')
      = fun k : Nat => (f.spans[k]?).any fun s => s.2 < a := by
    funext k
    exact h.any_eq k fun s s' hmoved => decide_eq_decide.2 (hmoved.2.lt_iff ha)
  unfold Footprint.add
  rw [hback, hbisect, h.size_eq]
  simp only [hb.le_iff ha]
  split
  · exact h
  split
  · exact hpush
  generalize bisect (fun k : Nat => (f.spans[k]?).any fun s => s.2 < a) 0 f.spans.size = i
  have hbefore : List.Forall₂ (SpanMovedBy d) (f.spans.extract 0 i).toList
      (f'.spans.extract 0 i).toList := by
    simpa using List.forall₂_take i h
  have hafter : ∀ j, List.Forall₂ (SpanMovedBy d) (f.spans.extract j f.spans.size).toList
      (f'.spans.extract j f.spans.size).toList := by
    intro j
    simpa using List.forall₂_take (f.spans.size - j) (List.forall₂_drop j h)
  rcases h.getElem? i with ⟨hs, hs'⟩ | ⟨s, s', hs, hs', hmoved⟩
  · rw [hs, hs']
    exact hpush
  · rw [hs, hs']
    simp only [hb.lt_iff hmoved.1]
    split
    · simpa [MovedBy] using List.rel_append (List.rel_append hbefore hnew) (hafter i)
    · obtain ⟨hreach, hrest⟩ := absorb_moved (hafter (i + 1)) (hmoved.2.max hb)
      have hjoined : List.Forall₂ (SpanMovedBy d)
          [(min s.1 a, (absorb (max s.2 b) (f.spans.extract (i + 1) f.spans.size).toList).1)]
          [(min s'.1 a', (absorb (max s'.2 b') (f'.spans.extract (i + 1) f.spans.size).toList).1)] :=
        .cons ⟨hmoved.1.min ha, hreach⟩ .nil
      have := List.rel_append (List.rel_append hbefore hjoined) hrest
      simpa [MovedBy] using this

theorem MovedBy.note (h : MovedBy d f f') {l l' : Look} (hl : l.MovedBy d l') :
    MovedBy d (f.note l) (f'.note l') := h.add hl.start hl.stop

/-- Merging keeps footprints in correspondence. -/
theorem MovedBy.merge (hf : MovedBy d f f') (hg : MovedBy d g g') :
    MovedBy d (f.merge g) (f'.merge g') := by
  have hfold : ∀ {l l' : List (Nat × Nat)}, List.Forall₂ (SpanMovedBy d) l l' → ∀ {f f'},
      MovedBy d f f' → MovedBy d (l.foldl (fun f s => f.add s.1 s.2) f)
        (l'.foldl (fun f s => f.add s.1 s.2) f') := by
    intro l l' hl
    induction hl with
    | nil => exact fun h => h
    | cons hs _ ih => exact fun h => ih (h.add hs.1 hs.2)
  have hempty : f'.spans.isEmpty = f.spans.isEmpty := by
    simp only [Array.isEmpty, hf.size_eq]
  unfold Footprint.merge
  rw [hempty]
  split
  · exact hg
  · rw [← Array.foldl_toList, ← Array.foldl_toList]
    exact hfold hg hf

end Footprint

/-! ### Trees -/

/-- A node that says the same about a place that is `d` places further on, its position aside. -/
structure NodeInfo.MovedBy (d : Int) (i i' : NodeInfo) : Prop where
  type : i'.type = i.type
  value : i'.value = i.value
  start : Offset.MovedBy d i.start i'.start
  stop : Offset.MovedBy d i.stop i'.stop
  invoked : Offset.MovedBy d i.invoked i'.invoked
  rule : i'.rule = i.rule
  depth : i'.depth = i.depth
  reads : i.reads.MovedBy d i'.reads

/-- Trees of the same form whose nodes are related one by one. -/
inductive Subtree.Alike (R : NodeInfo → NodeInfo → Prop) : Subtree → Subtree → Prop
  | node {info info' : NodeInfo} {children children' : List Subtree} :
      R info info' → List.Forall₂ (Alike R) children children' →
      Alike R (.node info children) (.node info' children')

/-- The same tree, `d` places further on. -/
def Subtree.MovedBy (d : Int) : Subtree → Subtree → Prop := Subtree.Alike (NodeInfo.MovedBy d)

/-- A tree that is found further on has examined what is found there. -/
theorem Subtree.MovedBy.examined_iff {t t' : Subtree} (h : t.MovedBy d t') {x x' : Nat}
    (hx : Offset.MovedBy d x x') : t'.Examined x' ↔ t.Examined x := by
  induction t using Subtree.induct generalizing t' with
  | step info children ih =>
    cases h with
    | @node _ info' _ children' hinfo hchildren =>
      rw [examined_node, examined_node, hinfo.reads.mem_iff hx]
      refine or_congr_right ?_
      clear hinfo
      induction hchildren with
      | nil => simp
      | cons hc _ ihs =>
        simp only [List.mem_cons, exists_eq_or_imp, ih _ (List.mem_cons_self ..) hc]
        exact or_congr_right (ihs fun c hc => ih c (List.mem_cons_of_mem _ hc))

mutual

/-- What is charged for a tree corresponds to what is charged for it elsewhere. -/
theorem Subtree.MovedBy.charge {f f' : Footprint} (hf : f.MovedBy d f') :
    ∀ {t t' : Subtree}, t.MovedBy d t' → (t.charge f).MovedBy d (t'.charge f')
  | .node info children, _, .node hinfo hchildren => by
    rw [Subtree.charge, Subtree.charge]
    exact chargeAll (hf.merge hinfo.reads) hchildren

theorem Subtree.MovedBy.chargeAll {f f' : Footprint} (hf : f.MovedBy d f') :
    ∀ {ts ts' : List Subtree}, List.Forall₂ (Subtree.MovedBy d) ts ts' →
      (Subtree.chargeAll f ts).MovedBy d (Subtree.chargeAll f' ts')
  | [], _, .nil => hf
  | t :: ts, _, .cons ht hts => by
    rw [Subtree.chargeAll, Subtree.chargeAll]
    exact chargeAll (charge hf ht) hts

end

end Packrat
