import Mathlib.Logic.Function.Basic
import Mathlib.Data.Nat.ModEq

/-!
# Ring buffers

The contents of a ring of `size` slots that starts at `head` and holds `count`
elements, and how appending behind the last and removing the first one act on
them.
-/

namespace CprFormal.Library.Ring

open Function (update)

variable {α : Type}

/-- `buf[head]`, `buf[head + 1 mod size]`, ... of length `count`. -/
def contents (buf : Nat → α) (size head count : Nat) : List α :=
  (List.range count).map fun i => buf ((head + i) % size)

/-- Two offsets of one round denote the same slot only when they are equal. -/
theorem slot_injective {size head i j : Nat} (hi : i < size) (hj : j < size)
    (same : (head + i) % size = (head + j) % size) : i = j := by
  have hmod : i ≡ j [MOD size] := Nat.ModEq.add_left_cancel' head same
  exact Nat.ModEq.eq_of_lt_of_lt hmod hi hj

/-- Writing a slot outside the occupied ones keeps the contents. -/
theorem contents_update_outside (buf : Nat → α) (head : Nat) {size count offset : Nat} (x : α)
    (hoffset : offset < size) (hcount : count ≤ offset) :
    contents (update buf ((head + offset) % size) x) size head count =
      contents buf size head count := by
  apply List.map_congr_left
  intro i hi
  have hlt : i < count := List.mem_range.mp hi
  apply Function.update_of_ne
  intro same
  have := slot_injective (by omega) hoffset same
  omega

/-- Appending stores in the first free slot. -/
theorem contents_append (buf : Nat → α) {size head count : Nat} (x : α)
    (room : count < size) :
    contents (update buf ((head + count) % size) x) size head (count + 1) =
      contents buf size head count ++ [x] := by
  have kept := contents_update_outside buf head x room (Nat.le_refl count)
  unfold contents at kept ⊢
  rw [List.range_succ, List.map_append, kept]
  simp

/-- The first element and the contents after it. -/
theorem contents_uncons (buf : Nat → α) {size head : Nat} (count : Nat)
    (hhead : head < size) :
    contents buf size head (count + 1) =
      buf head :: contents buf size ((head + 1) % size) count := by
  unfold contents
  rw [List.range_succ_eq_map, List.map_cons, List.map_map, Nat.add_zero,
    Nat.mod_eq_of_lt hhead]
  refine congrArg (buf head :: ·) (List.map_congr_left ?_)
  intro i _
  simp only [Function.comp_apply, Nat.succ_eq_add_one, Nat.mod_add_mod]
  congr 2
  omega

/-- Overwriting the slot of the removed first element keeps the others. -/
theorem contents_update_removed (buf : Nat → α) {size head count : Nat} (x : α)
    (hhead : head < size) (hcount : count + 1 ≤ size) :
    contents (update buf head x) size ((head + 1) % size) count =
      contents buf size ((head + 1) % size) count := by
  have slot : ((head + 1) % size + (size - 1)) % size = head := by
    rw [Nat.mod_add_mod, show head + 1 + (size - 1) = head + size by omega,
      Nat.add_mod_right, Nat.mod_eq_of_lt hhead]
  have last : size - 1 < size := by omega
  have free : count ≤ size - 1 := by omega
  have kept := contents_update_outside buf ((head + 1) % size) x last free
  rwa [slot] at kept

/-- The slot behind the last element moves on with an append. -/
theorem tail_append {size head count tail : Nat} (htail : tail = (head + count) % size) :
    (tail + 1) % size = (head + (count + 1)) % size := by
  rw [htail, Nat.mod_add_mod, Nat.add_assoc]

/-- The slot behind the last element stays when the first one is removed. -/
theorem tail_removed {size head count tail : Nat} (hcount : 0 < count)
    (htail : tail = (head + count) % size) :
    tail = ((head + 1) % size + (count - 1)) % size := by
  rw [htail, Nat.mod_add_mod]
  congr 1
  omega

end CprFormal.Library.Ring
