import Mathlib.Data.List.DropRight
import Mathlib.Data.List.GetD

/-!
# Rows of cells

A row is finite, and the cells behind it are blank.  What is visible of a row is the
row without its trailing blanks; two rows look the same when they agree in every cell.
-/

namespace CprFormal.Library.CellRow

variable {α : Type} [DecidableEq α] (blank : α)

def visible (row : List α) : List α := row.rdropWhile (· == blank)

/-- One cell is overwritten; a short row is filled up with blanks. -/
def put (row : List α) (i : Nat) (x : α) : List α :=
  (row ++ List.replicate (i + 1 - row.length) blank).set i x

omit [DecidableEq α] in
/-- Blanks behind a row change no cell. -/
theorem getD_append_blanks (row : List α) (n i : Nat) :
    (row ++ List.replicate n blank).getD i blank = row.getD i blank := by
  by_cases early : i < row.length
  · exact List.getD_append _ _ _ _ early
  · rw [List.getD_append_right _ _ _ _ (Nat.le_of_not_lt early),
      List.getD_eq_default row _ (Nat.le_of_not_lt early)]
    by_cases padded : i - row.length < n
    · exact List.getD_replicate blank padded
    · exact List.getD_eq_default _ _ (by rw [List.length_replicate]; omega)

omit [DecidableEq α] in
theorem put_getD (row : List α) (i j : Nat) (x : α) :
    (put blank row i x).getD j blank = if j = i then x else row.getD j blank := by
  have inside : i < (row ++ List.replicate (i + 1 - row.length) blank).length := by
    rw [List.length_append, List.length_replicate]
    omega
  unfold put
  rw [List.getD_eq_getElem?_getD, List.getElem?_set]
  by_cases here : i = j
  · rw [if_pos here, if_pos inside, if_pos here.symm]
    rfl
  · rw [if_neg here, if_neg (Ne.symm here), ← List.getD_eq_getElem?_getD, getD_append_blanks]

theorem visible_getD (row : List α) (i : Nat) :
    (visible blank row).getD i blank = row.getD i blank := by
  induction row using List.reverseRecOn with
  | nil => rfl
  | append_singleton row x ih =>
      unfold visible at ih ⊢
      by_cases trailing : (x == blank) = true
      · rw [List.rdropWhile_concat_pos (· == blank) _ _ trailing, ih, beq_iff_eq.mp trailing]
        exact (getD_append_blanks blank row 1 i).symm
      · rw [List.rdropWhile_concat_neg (· == blank) _ _ trailing]

/-- The last visible cell is not blank. -/
theorem visible_last (row : List α) (nonempty : visible blank row ≠ []) :
    (visible blank row).getLast nonempty ≠ blank := fun same =>
  List.rdropWhile_last_not (· == blank) row nonempty (beq_iff_eq.mpr same)

/-- What is visible does not reach behind the cells of a row that looks the same. -/
theorem visible_length_le {row other : List α}
    (same : ∀ i, row.getD i blank = other.getD i blank) :
    (visible blank row).length ≤ (visible blank other).length := by
  by_contra longer
  have nonempty : visible blank row ≠ [] := fun none => by
    rw [none] at longer
    exact longer (Nat.zero_le _)
  have last := visible_last blank row nonempty
  have here := visible_getD blank row ((visible blank row).length - 1)
  have there := visible_getD blank other ((visible blank row).length - 1)
  rw [List.getD_eq_default _ _ (by omega)] at there
  rw [List.getLast_eq_getElem] at last
  rw [List.getD_eq_getElem _ _ (by omega), same, ← there] at here
  exact last here

theorem visible_eq_iff {row other : List α} :
    visible blank row = visible blank other ↔
      ∀ i, row.getD i blank = other.getD i blank := by
  constructor
  · intro same i
    rw [← visible_getD, same, visible_getD]
  · intro same
    have length : (visible blank row).length = (visible blank other).length :=
      Nat.le_antisymm (visible_length_le blank same)
        (visible_length_le blank fun i => (same i).symm)
    refine List.ext_getElem length fun i h h' => ?_
    rw [← List.getD_eq_getElem _ blank h, ← List.getD_eq_getElem _ blank h', visible_getD,
      visible_getD, same]

end CprFormal.Library.CellRow
