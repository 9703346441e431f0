import Mathlib.Algebra.Group.Int.Defs
import Mathlib.Algebra.Group.Nat.Defs
import Mathlib.Order.Basic

/-!
# Signed machine arithmetic

Signed division truncates towards zero, and a result that its type cannot hold is
undefined.
-/

namespace CprFormal.Library.SignedInt

/-- A signed result of `bits` bits; `none` is undefined. -/
def checked (bits : Nat) (n : Int) : Option Int :=
  if -2 ^ (bits - 1) ≤ n ∧ n < 2 ^ (bits - 1) then some n else none

@[simp]
theorem checked_eq_some {bits : Nat} {n value : Int} :
    checked bits n = some value ↔ (-2 ^ (bits - 1) ≤ n ∧ n < 2 ^ (bits - 1)) ∧ n = value := by
  unfold checked
  split
  · rename_i inside
    simp [inside]
  · rename_i outside
    simp [outside]

/-- Quotient and remainder of a truncating division. -/
structure Divided (n d : Int) : Prop where
  sum : d * n.tdiv d + n.tmod d = n
  low : -d < n.tmod d
  high : n.tmod d < d

theorem divided (n : Int) {d : Int} (positive : 0 < d) : Divided n d where
  sum := Int.mul_tdiv_add_tmod n d
  low := Int.lt_tmod_of_pos n positive
  high := Int.tmod_lt_of_pos n positive

/-- The remainder has the sign of the dividend. -/
theorem tmod_sign (n d : Int) : (0 ≤ n → 0 ≤ n.tmod d) ∧ (n ≤ 0 → n.tmod d ≤ 0) := by
  refine ⟨Int.tmod_nonneg d, fun below => ?_⟩
  have mirrored := Int.tmod_nonneg d (Int.neg_nonneg_of_nonpos below)
  rw [Int.neg_tmod] at mirrored
  exact Int.neg_nonneg.mp mirrored

/-- A conversion to a signed type of `bits` bits, which wraps around. -/
def convert (bits : Nat) (n : Int) : Int := n.bmod (2 ^ bits)

/-- A conversion keeps what its type can hold. -/
theorem convert_of_held {bits : Nat} (some_bits : 0 < bits) {n : Int}
    (low : -2 ^ (bits - 1) ≤ n) (high : n < 2 ^ (bits - 1)) : convert bits n = n := by
  obtain ⟨k, rfl⟩ := Nat.exists_eq_add_of_lt some_bits
  have half : (2 : Int) ^ (0 + k + 1) = 2 * 2 ^ k := by
    rw [Nat.zero_add, pow_succ, Int.mul_comm]
  have same : 0 + k + 1 - 1 = k := by omega
  rw [same] at low high
  unfold convert
  apply Int.bmod_eq_of_le
  · push_cast
    omega
  · push_cast
    omega

end CprFormal.Library.SignedInt
