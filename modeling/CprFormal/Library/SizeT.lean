import Mathlib.Algebra.Group.Nat.Defs
import Mathlib.Order.Basic

/-!
# Unsigned machine arithmetic

`size_t` has 64 bits: a sum that is too large and a difference below zero wrap
around.
-/

namespace CprFormal.Library.SizeT

/-- A sum or product as a `size_t`. -/
def wrap (n : Nat) : Nat := n % 2 ^ 64

/-- The difference of two `size_t`. -/
def sub (a b : Nat) : Nat := if a < b then 2 ^ 64 + a - b else a - b

theorem wrap_of_lt {n : Nat} (small : n < 2 ^ 64) : wrap n = n := Nat.mod_eq_of_lt small

theorem sub_of_le {a b : Nat} (le : b ≤ a) : sub a b = a - b := if_neg (Nat.not_lt.mpr le)

end CprFormal.Library.SizeT
