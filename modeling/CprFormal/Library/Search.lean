import CprFormal.Library.FlatMemory

/-!
# Searching upwards

A loop that tests positions one after the other and stops at the first hit.
-/

namespace CprFormal.Library.Search

/-- Test `p` at `i`, `i + 1`, ... for at most `n` positions.  The result is the
position where the loop stopped and whether `p` holds there. -/
def searchUp (p : Nat → Bool) : Nat → Nat → Nat × Bool
  | 0, i => (i, false)
  | n + 1, i => if p i then (i, true) else searchUp p n (i + 1)

/-- A hit is the first position that meets the test. -/
theorem searchUp_found {p : Nat → Bool} {n i j : Nat} (found : searchUp p n i = (j, true)) :
    i ≤ j ∧ j < i + n ∧ p j = true ∧ ∀ k, i ≤ k → k < j → p k = false := by
  induction n generalizing i with
  | zero => cases found
  | succ n ih =>
      unfold searchUp at found
      cases here : p i with
      | true =>
          rw [if_pos here] at found
          cases found
          exact ⟨Nat.le_refl _, by omega, here, fun k low high => by omega⟩
      | false =>
          rw [here, if_neg (by decide)] at found
          obtain ⟨low, high, hit, before⟩ := ih found
          refine ⟨by omega, by omega, hit, fun k start stop => ?_⟩
          by_cases first : k = i
          · rw [first]
            exact here
          · exact before k (by omega) stop

/-- Without a hit all positions have been tested. -/
theorem searchUp_missed {p : Nat → Bool} {n i j : Nat} (missed : searchUp p n i = (j, false)) :
    j = i + n ∧ ∀ k, i ≤ k → k < i + n → p k = false := by
  induction n generalizing i with
  | zero =>
      cases missed
      exact ⟨rfl, fun k low high => by omega⟩
  | succ n ih =>
      unfold searchUp at missed
      cases here : p i with
      | true =>
          rw [if_pos here] at missed
          cases missed
      | false =>
          rw [here, if_neg (by decide)] at missed
          obtain ⟨stop, tested⟩ := ih missed
          refine ⟨by omega, fun k low high => ?_⟩
          by_cases first : k = i
          · rw [first]
            exact here
          · exact tested k (by omega) (by omega)

/-- The first position that meets the test is the one that is found. -/
theorem searchUp_eq {p : Nat → Bool} {n i j : Nat} (low : i ≤ j) (high : j < i + n)
    (hit : p j = true) (before : ∀ k, i ≤ k → k < j → p k = false) :
    searchUp p n i = (j, true) := by
  obtain ⟨k, found⟩ : ∃ k, searchUp p n i = (k, true) := by
    cases result : searchUp p n i with
    | mk k hits =>
        cases hits with
        | true => exact ⟨k, rfl⟩
        | false =>
            have missed := (searchUp_missed result).2 j low high
            rw [hit] at missed
            cases missed
  obtain ⟨start, _, here, earlier⟩ := searchUp_found found
  rcases Nat.lt_trichotomy k j with below | same | above
  · rw [before k start below] at here
    cases here
  · rw [found, same]
  · rw [earlier j low above] at hit
    cases hit

/-- The positions that are tested. -/
def searchReads (p : Nat → Bool) : Nat → Nat → List Nat
  | 0, _ => []
  | n + 1, i => i :: if p i then [] else searchReads p n (i + 1)

theorem searchUp_ge (p : Nat → Bool) (n i : Nat) : i ≤ (searchUp p n i).1 := by
  induction n generalizing i with
  | zero => exact Nat.le_refl i
  | succ n ih =>
      rw [searchUp]
      split
      · exact Nat.le_refl i
      · exact Nat.le_of_succ_le (ih (i + 1))

/-- A search does not pass a position that meets the test. -/
theorem searchUp_le {p : Nat → Bool} {i k : Nat} (n : Nat) (low : i ≤ k) (hit : p k = true) :
    (searchUp p n i).1 ≤ k := by
  induction n generalizing i with
  | zero => exact low
  | succ n ih =>
      rw [searchUp]
      split
      · exact low
      · rename_i missed
        have other : i ≠ k := fun same => missed (same ▸ hit)
        exact ih (Nat.lt_of_le_of_ne low other)

theorem searchReads_le {p : Nat → Bool} {i k : Nat} (n : Nat) (low : i ≤ k) (hit : p k = true) :
    ∀ j ∈ searchReads p n i, j ≤ k := by
  induction n generalizing i with
  | zero => nofun
  | succ n ih =>
      intro j member
      rcases List.mem_cons.mp member with rfl | later
      · exact low
      · split at later
        · cases later
        · rename_i missed
          have other : i ≠ k := fun same => missed (same ▸ hit)
          exact ih (Nat.lt_of_le_of_ne low other) j later

end CprFormal.Library.Search
