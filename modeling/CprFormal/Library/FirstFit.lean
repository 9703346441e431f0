import Mathlib.Algebra.BigOperators.Group.List.Basic
import Mathlib.Data.List.Induction
import Mathlib.Data.List.Pairwise
import Mathlib.Tactic.Ring

/-!
# First fit

Sizes are put into bins of one capacity, each into the first bin with room for it or into
a new bin behind the others.  Of two bins the later one was opened by a size that did not
fit into the earlier one, so any two bins together hold more than one capacity, and all
bins together more than half of theirs.
-/

namespace CprFormal.Library.FirstFit

/-- The loads of the bins after one size more. -/
def place (capacity : Nat) : List Nat → Nat → List Nat
  | [], size => [size]
  | load :: rest, size =>
      if load + size ≤ capacity then (load + size) :: rest
      else load :: place capacity rest size

/-- The loads of the bins after all sizes, from the first to the last. -/
def pack (capacity : Nat) (sizes : List Nat) : List Nat := sizes.foldl (place capacity) []

/-- Any two bins hold more than one capacity. -/
def Crowded (capacity : Nat) (loads : List Nat) : Prop :=
  loads.Pairwise fun x y => capacity < x + y

variable {capacity : Nat} {loads before rest : List Nat} {load size : Nat}

theorem place_full (full : ∀ x ∈ loads, capacity < x + size) :
    place capacity loads size = loads ++ [size] := by
  induction loads with
  | nil => rfl
  | cons x loads ih =>
      have here := full x List.mem_cons_self
      rw [place, if_neg (Nat.not_le.mpr here),
        ih fun y member => full y (List.mem_cons_of_mem x member)]
      rfl

theorem place_first (full : ∀ x ∈ before, capacity < x + size) (fit : load + size ≤ capacity) :
    place capacity (before ++ load :: rest) size = before ++ (load + size) :: rest := by
  induction before with
  | nil => exact if_pos fit
  | cons x before ih =>
      have here := full x List.mem_cons_self
      rw [List.cons_append, place, if_neg (Nat.not_le.mpr here),
        ih fun y member => full y (List.mem_cons_of_mem x member)]
      rfl

theorem pack_snoc (sizes : List Nat) :
    pack capacity (sizes ++ [size]) = place capacity (pack capacity sizes) size := by
  unfold pack
  rw [List.foldl_append]
  rfl

theorem place_sum (capacity : Nat) (loads : List Nat) (size : Nat) :
    (place capacity loads size).sum = loads.sum + size := by
  induction loads with
  | nil => exact Nat.add_comm size 0
  | cons x loads ih =>
      rw [place]
      split
      · rw [List.sum_cons, List.sum_cons, Nat.add_right_comm]
      · rw [List.sum_cons, List.sum_cons, ih, Nat.add_assoc]

theorem pack_sum (capacity : Nat) (sizes : List Nat) : (pack capacity sizes).sum = sizes.sum := by
  induction sizes using List.reverseRecOn with
  | nil => rfl
  | append_singleton sizes size ih =>
      rw [pack_snoc, place_sum, ih, List.sum_append, List.sum_singleton]

/-- A bin afterwards holds what one held before, or more, or the size alone. -/
theorem mem_place {y : Nat} (member : y ∈ place capacity loads size) :
    (∃ x ∈ loads, x ≤ y) ∨ y = size := by
  induction loads with
  | nil => exact .inr (List.mem_singleton.mp member)
  | cons x loads ih =>
      rw [place] at member
      split at member
      · rcases List.mem_cons.mp member with rfl | later
        · exact .inl ⟨x, List.mem_cons_self, Nat.le_add_right x size⟩
        · exact .inl ⟨y, List.mem_cons_of_mem x later, Nat.le_refl y⟩
      · rcases List.mem_cons.mp member with rfl | later
        · exact .inl ⟨y, List.mem_cons_self, Nat.le_refl y⟩
        · rcases ih later with ⟨z, old, less⟩ | alone
          · exact .inl ⟨z, List.mem_cons_of_mem x old, less⟩
          · exact .inr alone

theorem place_crowded (crowded : Crowded capacity loads) (size : Nat) :
    Crowded capacity (place capacity loads size) := by
  induction loads with
  | nil => exact List.pairwise_singleton _ size
  | cons x loads ih =>
      obtain ⟨first, later⟩ := List.pairwise_cons.mp crowded
      rw [place]
      split
      · refine List.pairwise_cons.mpr ⟨fun y member => ?_, later⟩
        have pair := first y member
        omega
      · next full =>
          refine List.pairwise_cons.mpr ⟨fun y member => ?_, ih later⟩
          rcases mem_place member with ⟨z, old, less⟩ | rfl
          · exact Nat.lt_of_lt_of_le (first z old) (Nat.add_le_add_left less x)
          · exact Nat.lt_of_not_le full

theorem pack_crowded (capacity : Nat) (sizes : List Nat) :
    Crowded capacity (pack capacity sizes) := by
  induction sizes using List.reverseRecOn with
  | nil => exact List.Pairwise.nil
  | append_singleton sizes size ih =>
      rw [pack_snoc]
      exact place_crowded ih size

/-- Two bins hold more than one capacity, three more than one and a half, and so on. -/
theorem crowded_sum : ∀ {loads : List Nat}, Crowded capacity loads → 2 ≤ loads.length →
    loads.length * capacity < 2 * loads.sum
  | [x, y], crowded, _ => by
      have pair := (List.pairwise_cons.mp crowded).1 y List.mem_cons_self
      simp only [List.length_cons, List.length_nil, List.sum_cons, List.sum_nil]
      omega
  | [x, y, z], crowded, _ => by
      obtain ⟨first, later⟩ := List.pairwise_cons.mp crowded
      have near := first y List.mem_cons_self
      have far := first z (List.mem_cons_of_mem y List.mem_cons_self)
      have last := (List.pairwise_cons.mp later).1 z List.mem_cons_self
      simp only [List.length_cons, List.length_nil, List.sum_cons, List.sum_nil]
      omega
  | x :: y :: z :: w :: loads, crowded, _ => by
      obtain ⟨first, later⟩ := List.pairwise_cons.mp crowded
      have pair := first y List.mem_cons_self
      have others : Crowded capacity (z :: w :: loads) := (List.pairwise_cons.mp later).2
      have half := crowded_sum others (Nat.le_add_left 2 loads.length)
      have two : (x :: y :: z :: w :: loads).length * capacity =
          2 * capacity + (z :: w :: loads).length * capacity := by
        rw [List.length_cons, List.length_cons]
        ring
      rw [two, List.sum_cons, List.sum_cons]
      omega

/-- The bins are more than half full, as soon as there are two of them. -/
theorem pack_half (sizes : List Nat) (two : 2 ≤ (pack capacity sizes).length) :
    (pack capacity sizes).length * capacity < 2 * sizes.sum := by
  have half := crowded_sum (pack_crowded capacity sizes) two
  rwa [pack_sum] at half

/-- A size that fits nowhere fills, with what is there, more than half of one bin more. -/
theorem refused_half {sizes : List Nat} (opened : pack capacity sizes ≠ [])
    (full : ∀ x ∈ pack capacity sizes, capacity < x + size) :
    ((pack capacity sizes).length + 1) * capacity < 2 * (sizes.sum + size) := by
  have fresh : pack capacity (sizes ++ [size]) = pack capacity sizes ++ [size] :=
    (pack_snoc sizes).trans (place_full full)
  have positive := List.length_pos_iff.mpr opened
  have two : 2 ≤ (pack capacity (sizes ++ [size])).length := by
    rw [fresh, List.length_append, List.length_singleton]
    omega
  have half := pack_half (sizes ++ [size]) two
  rwa [fresh, List.length_append, List.length_singleton, List.sum_append,
    List.sum_singleton] at half

end CprFormal.Library.FirstFit
