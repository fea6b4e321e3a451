import Packrat.Proofs.Footprint
import Mathlib.Order.Interval.Set.Basic

/-!
Histories of a footprint.

A footprint comes about by adding stretches, by merging with other footprints, by being emptied and by
moving along with edits (`History`).  Beside it stands the set of numbers that all this is meant to
collect (`History.members`), without spans and without words.

What is promised of an edit is that the set misses what is edited and that nothing gets in front of the
place of the edit (`History.Careful`).  So nothing can fall below zero; but offsets are words, and an
offset that is moved beyond the last one comes round as well (`History.careful_wrapping`).

Main statement (`History.footprint_faithful`): while no offset gets beyond the last word, the spans stay
in order, and the footprint is the set, for membership and for the search by halving.  Spans that a shift
has left touching are no exception.
-/

namespace Packrat

namespace Footprint

/-- How a footprint has come about. -/
inductive History where
  | empty
  | add (h : History) (start stop : Nat)
  | merge (h other : History)
  | clear (h : History)
  | shift (h : History) (editStart editEnd : Nat) (delta : Int)

namespace History

/-- The footprint at the end of a history. -/
def footprint : History → Footprint
  | empty => .empty
  | add h start stop => h.footprint.add start stop
  | merge h other => h.footprint.merge other.footprint
  | clear _ => .empty
  | shift h editStart editEnd delta => h.footprint.shift editStart editEnd delta

/-- The set that a history collects: what lies behind an edit moves, by plain addition. -/
def members : History → Set Nat
  | empty => ∅
  | add h start stop => h.members ∪ Set.Ico start stop
  | merge h other => h.members ∪ other.members
  | clear _ => ∅
  | shift h editStart editEnd delta =>
    {y | ∃ x ∈ h.members,
      (y : Int) = if max editEnd (editStart + 1) ≤ x then (x : Int) + delta else x}

/-- Every edit removes no more than it spans, and the set misses what is edited. -/
def Careful : History → Prop
  | empty => True
  | add h _ _ => h.Careful
  | merge h other => h.Careful ∧ other.Careful
  | clear h => h.Careful
  | shift h editStart editEnd delta =>
    h.Careful ∧ editStart ≤ editEnd ∧ (editStart : Int) - editEnd ≤ delta
      ∧ ∀ x ∈ h.members, ¬(editStart ≤ x ∧ x < max editEnd (editStart + 1))

/-- No offset is moved so far that the one behind it is no word any more. -/
def InWords : History → Prop
  | empty => True
  | add h _ _ => h.InWords
  | merge h other => h.InWords ∧ other.InWords
  | clear h => h.InWords
  | shift h editStart editEnd delta =>
    h.InWords ∧ ∀ x ∈ h.members, max editEnd (editStart + 1) ≤ x →
      (x : Int) + delta + 1 < Offset.count

variable {h : History}

/-- The spans are in order and denote the set that the history collects. -/
theorem ordered_and_mem_iff (hcareful : h.Careful) (hwords : h.InWords) :
    h.footprint.Ordered ∧ ∀ x, h.footprint.mem x ↔ x ∈ h.members := by
  induction h with
  | empty => exact ⟨ordered_empty, fun x => iff_of_false not_mem_empty (Set.notMem_empty x)⟩
  | add h start stop ih =>
    obtain ⟨hordered, hmem⟩ := ih hcareful hwords
    obtain ⟨hordered', hmem'⟩ := add_spec hordered start stop
    exact ⟨hordered', fun x => (hmem' x).trans (or_congr_left (hmem x))⟩
  | merge h other ih ih' =>
    obtain ⟨hordered, hmem⟩ := ih hcareful.1 hwords.1
    obtain ⟨hordered', hmem'⟩ := ih' hcareful.2 hwords.2
    obtain ⟨hmerged, hunion⟩ := merge_spec hordered hordered'
    exact ⟨hmerged, fun x => (hunion x).trans (or_congr (hmem x) (hmem' x))⟩
  | clear h _ => exact ⟨ordered_empty, fun x => iff_of_false not_mem_empty (Set.notMem_empty x)⟩
  | shift h editStart editEnd delta ih =>
    obtain ⟨hcareful, -, hdelta, hmiss⟩ := hcareful
    obtain ⟨hwords, hlast⟩ := hwords
    obtain ⟨hordered, hmem⟩ := ih hcareful hwords
    obtain ⟨hordered', hmoves⟩ := shift_moves hordered hdelta
      (fun x h₁ h₂ hx => hmiss x ((hmem x).1 hx) ⟨h₁, h₂⟩) fun x hx => hlast x ((hmem x).1 hx)
    exact ⟨hordered', fun y => (hmoves y).trans (exists_congr fun x => and_congr_left' (hmem x))⟩

/-- **A footprint is a faithful set.** After every history of careful edits, in which no offset gets
beyond the last word, the spans are not empty and stand one behind the other, they denote the set that
the history collects, and the search finds out whether a stretch meets this set. -/
theorem footprint_faithful (h : History) (hcareful : h.Careful) (hwords : h.InWords) :
    h.footprint.Ordered ∧ (∀ x, h.footprint.mem x ↔ x ∈ h.members)
      ∧ ∀ a b, h.footprint.intersects a b = true ↔ ∃ x ∈ h.members, a ≤ x ∧ x < b := by
  obtain ⟨hordered, hmem⟩ := ordered_and_mem_iff hcareful hwords
  refine ⟨hordered, hmem, fun a b => (intersects_iff hordered).trans (exists_congr fun x => ?_)⟩
  rw [hmem x]
  tauto

/-- Two stretches that touch when the text between them is gone, and a third one across both. -/
def touching : History :=
  .add (.shift (.merge (.add .empty 0 2) (.add .empty 5 8)) 2 5 (-3)) 1 3

theorem mem_touching {x : Nat} : x ∈ touching.members ↔ x < 5 := by
  simp only [touching, members, Set.empty_union, Set.mem_union, Set.mem_Ico, Set.mem_ofPred_eq]
  constructor
  · rintro (⟨y, hy, hx⟩ | hx)
    · split at hx <;> omega
    · omega
  · intro hx
    rcases Nat.lt_or_ge x 2 with hlt | hge
    · exact .inl ⟨x, by omega, by rw [if_neg (by omega)]⟩
    · exact .inl ⟨x + 3, by omega, by rw [if_pos (by omega)]; omega⟩

/-- The spans `[0, 2)` and `[2, 5)` are found to hold everything below five. -/
theorem footprint_touching :
    touching.Careful ∧ touching.InWords ∧ touching.footprint.Ordered ∧ touching.footprint.mem 4
      ∧ touching.footprint.intersects 4 9 = true ∧ touching.footprint.intersects 5 9 = false := by
  have hcareful : touching.Careful := by
    refine ⟨⟨trivial, trivial⟩, by decide, by decide, fun x hx => ?_⟩
    simp only [members, Set.empty_union, Set.mem_union, Set.mem_Ico] at hx
    omega
  have hwords : touching.InWords := by
    refine ⟨⟨trivial, trivial⟩, fun x hx _ => ?_⟩
    simp only [members, Set.empty_union, Set.mem_union, Set.mem_Ico] at hx
    simp only [Offset.count]
    omega
  obtain ⟨hordered, hmem, hmeets⟩ := footprint_faithful touching hcareful hwords
  refine ⟨hcareful, hwords, hordered, (hmem 4).2 (mem_touching.2 (by decide)),
    (hmeets 4 9).2 ⟨4, mem_touching.2 (by decide), by decide⟩, ?_⟩
  refine Bool.eq_false_iff.2 fun h => ?_
  obtain ⟨x, hx, h₁, h₂⟩ := (hmeets 5 9).1 h
  have := mem_touching.1 hx
  omega

/-- The last offset that has a word behind it, moved by five. -/
def wrapping : History := .shift (.add .empty (Offset.count - 2) (Offset.count - 1)) 0 0 5

/-- The edit is careful, but the offset comes round and is found where the set has no member. -/
theorem careful_wrapping :
    wrapping.Careful ∧ wrapping.footprint.intersects 3 4 = true
      ∧ ¬∃ x ∈ wrapping.members, 3 ≤ x ∧ x < 4 := by
  refine ⟨?_, ?_, ?_⟩
  · refine ⟨trivial, by decide, by decide, fun x hx => ?_⟩
    simp only [members, Set.empty_union, Set.mem_Ico, Offset.count] at hx
    omega
  · decide +kernel
  · simp only [wrapping, members, Set.empty_union, Set.mem_Ico, Set.mem_ofPred_eq, Offset.count]
    rintro ⟨y, ⟨x, hx, hy⟩, h₁, h₂⟩
    split at hy <;> omega

end History

end Footprint

end Packrat
