/-!
Search by halving.

`bisect goRight first len` looks for the boundary in `[first, first + len)` behind which `goRight`
fails.  On a predicate that holds up to some index and fails from there on, the result is that
index; on any other predicate it is the index at which the halving happens to end, which the tables
of this library also rely on: their entries may have wrapped around and then stand out of order.
-/

namespace Packrat

/-- Halves `[first, first + len)`, going right where `goRight` holds in the middle. -/
def bisect (goRight : Nat → Bool) (first len : Nat) : Nat :=
  if len = 0 then first
  else
    let half := len / 2
    if goRight (first + half) then bisect goRight (first + half + 1) (len - half - 1)
    else bisect goRight first half
termination_by len

/-- The boundary is never behind the range. -/
theorem bisect_le (goRight : Nat → Bool) (first len : Nat) :
    bisect goRight first len ≤ first + len := by
  fun_induction bisect goRight first len <;> grind

/-- On a predicate that fails from some index on, everything in front of the boundary passes and
nothing behind it does. -/
theorem bisect_spec {goRight : Nat → Bool} {first len : Nat}
    (h : ∀ i j, first ≤ i → i ≤ j → j < first + len → goRight j = true → goRight i = true) :
    (∀ k, first ≤ k → k < bisect goRight first len → goRight k = true)
      ∧ ∀ k, bisect goRight first len ≤ k → k < first + len → goRight k = false := by
  fun_induction bisect goRight first len with
  | case1 first => exact ⟨fun k _ _ => by omega, fun k _ _ => by omega⟩
  | case2 first len hlen half hright ih =>
    obtain ⟨h₁, h₂⟩ := ih fun i j hi hij hj => h i j (by omega) hij (by omega)
    refine ⟨fun k hk hlt => ?_, fun k hk hlt => h₂ k hk (by omega)⟩
    rcases Nat.lt_or_ge k (first + half + 1) with hle | hge
    · exact h k (first + half) hk (by omega) (by omega) hright
    · exact h₁ k hge hlt
  | case3 first len hlen half hright ih =>
    obtain ⟨h₁, h₂⟩ := ih fun i j hi hij hj => h i j hi hij (by omega)
    refine ⟨h₁, fun k hk hlt => ?_⟩
    rcases Nat.lt_or_ge k (first + half) with hin | hge
    · exact h₂ k hk hin
    · -- passing behind the middle would mean passing in the middle
      by_cases hp : goRight k = true
      · exact absurd (h (first + half) k (by omega) hge hlt hp) hright
      · simpa using hp

end Packrat
