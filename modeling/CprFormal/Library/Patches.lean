import Mathlib.Data.List.Pairwise
import CprFormal.Library.FlatMemory

/-!
# Patches of a memory

A patch writes a list of cells at an offset.  Patches that keep apart can be applied in any
order, and each of them is found afterwards where it was written.
-/

namespace CprFormal.Library.Patches

open CprFormal.Library.FlatMemory

variable {α : Type}

structure Patch (α : Type) where
  offset : Nat
  cells : List α

namespace Patch

def apply (m : Memory α) (p : Patch α) : Memory α := m.write p.offset p.cells

/-- The addresses that a patch writes. -/
def Covers (p : Patch α) (i : Nat) : Prop := p.offset ≤ i ∧ i < p.offset + p.cells.length

/-- No address is written by both. -/
def Apart (p q : Patch α) : Prop :=
  p.offset + p.cells.length ≤ q.offset ∨ q.offset + q.cells.length ≤ p.offset

theorem Apart.symm {p q : Patch α} (apart : Apart p q) : Apart q p := Or.symm apart

theorem apply_outside (m : Memory α) {p : Patch α} {i : Nat} (outside : ¬ p.Covers i) :
    p.apply m i = m i := by
  unfold Covers at outside
  exact m.write_outside p.cells (by omega)

/-- What a patch writes does not depend on what was there. -/
theorem apply_inside (m m' : Memory α) {p : Patch α} {i : Nat} (inside : p.Covers i) :
    p.apply m i = p.apply m' i := by
  obtain ⟨k, rfl⟩ := Nat.exists_eq_add_of_le inside.1
  have short : k < p.cells.length := by
    have behind := inside.2
    omega
  exact (m.write_inside p.offset p.cells short).trans
    (m'.write_inside p.offset p.cells short).symm

theorem apply_comm (m : Memory α) {p q : Patch α} (apart : Apart p q) :
    q.apply (p.apply m) = p.apply (q.apply m) := by
  funext i
  by_cases first : p.Covers i
  · have other : ¬ q.Covers i := by
      unfold Covers Apart at *
      omega
    rw [apply_outside _ other, apply_inside m (q.apply m) first]
  · rw [apply_outside (q.apply m) first]
    by_cases second : q.Covers i
    · exact apply_inside _ _ second
    · rw [apply_outside _ second, apply_outside _ second, apply_outside _ first]

end Patch

open Patch

/-- All patches of a list, from the first to the last. -/
def applyAll (m : Memory α) (ps : List (Patch α)) : Memory α := ps.foldl Patch.apply m

theorem applyAll_outside (m : Memory α) {ps : List (Patch α)} {i : Nat}
    (outside : ∀ p ∈ ps, ¬ p.Covers i) : applyAll m ps i = m i := by
  induction ps generalizing m with
  | nil => rfl
  | cons p ps ih =>
      refine (ih (p.apply m) fun q member => outside q (List.mem_cons_of_mem p member)).trans ?_
      exact apply_outside m (outside p List.mem_cons_self)

/-- The order does not matter. -/
theorem applyAll_perm (m : Memory α) {ps qs : List (Patch α)} (apart : ps.Pairwise Apart)
    (perm : ps.Perm qs) : applyAll m ps = applyAll m qs := by
  refine perm.foldl_eq' (fun p first q second z => ?_) m
  by_cases same : p = q
  · rw [same]
  · have symm : Std.Symm (Apart : Patch α → Patch α → Prop) := ⟨fun _ _ => Apart.symm⟩
    exact apply_comm z (apart.forall first second same)

/-- Every patch is found where it was written. -/
theorem applyAll_slice (m : Memory α) {ps : List (Patch α)} (apart : ps.Pairwise Apart)
    {p : Patch α} (member : p ∈ ps) :
    (applyAll m ps).slice p.offset p.cells.length = p.cells := by
  induction ps generalizing m with
  | nil => exact absurd member List.not_mem_nil
  | cons q ps ih =>
      obtain ⟨here, later⟩ := List.pairwise_cons.mp apart
      rcases List.mem_cons.mp member with rfl | inside
      · have kept : (applyAll m (p :: ps)).slice p.offset p.cells.length =
            (p.apply m).slice p.offset p.cells.length := by
          apply List.ext_getElem
          · rw [Memory.slice_length, Memory.slice_length]
          · intro k low high
            rw [Memory.slice_length] at low
            rw [Memory.getElem_slice, Memory.getElem_slice]
            refine applyAll_outside (p.apply m) fun q others => ?_
            have between := here q others
            unfold Apart at between
            unfold Covers
            omega
        rw [kept]
        exact m.slice_write p.offset p.cells
      · exact ih (q.apply m) later inside

end CprFormal.Library.Patches
